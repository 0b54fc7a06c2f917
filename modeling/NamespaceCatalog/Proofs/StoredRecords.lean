import NamespaceCatalog.Proofs.CborItems
import NamespaceCatalog.Proofs.JsonText
import NamespaceCatalog.Record.Sample

/-!
# Records come back as they were stored

If the library for a format keeps documents of texts and maps, its codec encodes every record, and
what it encoded is decoded to the same record (`DataFormat.Keeps.roundTrips`).  So an override that
is absent is never taken for an empty one (`Format.reads_what_it_wrote`).
-/

namespace NamespaceCatalog

theorem DataFormat.Keeps.roundTrips {lib : DataFormat} (h : lib.Keeps) (writing reading : String)
    (r : Record) : (lib.codec writing reading).RoundTrips r := by
  obtain ⟨bs, hwrite, hread⟩ := h Record.shape r.toDocument r.fits_toDocument
  refine ⟨bs, by simp only [codec, hwrite], ?_⟩
  simp only [codec, hread, Record.ofDocument_toDocument]

namespace Format

variable {libs : Format → DataFormat} {f : Format}

theorem roundTrips (h : (libs f).Keeps) (r : Record) : (f.codec libs).RoundTrips r := by
  cases f with
  | json => exact h.roundTrips _ _ r
  | cbor => exact h.roundTrips _ _ r

/-- Every record is encoded in either format, and comes back as it was, whatever characters its
texts are made of and how long they are; and the record that has an empty override where this one
has none is stored as something else. -/
theorem reads_what_it_wrote (h : (libs f).Keeps) (r : Record) :
    (∃ bs, (f.codec libs).encode r = .ok bs ∧ (f.codec libs).decode bs = .ok r) ∧
      ∀ s, r.overrides.get s = none →
        (f.codec libs).encode (r.override s "") ≠ (f.codec libs).encode r := by
  refine ⟨roundTrips h r, fun s hs e => ?_⟩
  obtain ⟨bs, hencode, hdecode⟩ := roundTrips h r
  obtain ⟨bs', hencode', hdecode'⟩ := roundTrips h (r.override s "")
  obtain rfl : bs' = bs := Except.ok.inj (hencode'.symm.trans (e.trans hencode))
  have hsame : r.override s "" = r := Except.ok.inj (hdecode'.symm.trans hdecode)
  have hget : (r.override s "").overrides.get s = some "" := by
    simp [Record.override, Overrides.get_set]
  rw [hsame, hs] at hget
  cases hget

theorem keeps_libraries (f : Format) : (Sample.libraries f).Keeps := by
  cases f with
  | json => exact Json.keeps_dataFormat
  | cbor => exact Cbor.keeps_dataFormat

/-- A record whose texts hold what JSON escapes, and more than one kind of other characters. -/
def escapedRecord : Record :=
  ⟨"a", "\"\\/\x00\x1f\n\t\x7fé𝄞", ⟨some "", none, some "\u2028", none⟩⟩

/-- It comes back from both formats, and its empty override is there. -/
theorem reads_what_it_wrote_of_escaped :
    (∀ f, (Sample.libraries f).Keeps) ∧
      (∃ bs, (json.codec Sample.libraries).encode escapedRecord = .ok bs ∧
        (json.codec Sample.libraries).decode bs = .ok escapedRecord) ∧
      (∃ bs, (cbor.codec Sample.libraries).encode escapedRecord = .ok bs ∧
        (cbor.codec Sample.libraries).decode bs = .ok escapedRecord) ∧
      (json.codec Sample.libraries).encode (escapedRecord.override .rootDirectory "") ≠
        (json.codec Sample.libraries).encode escapedRecord := by
  obtain ⟨hjson, hempty⟩ := reads_what_it_wrote (keeps_libraries json) escapedRecord
  obtain ⟨hcbor, -⟩ := reads_what_it_wrote (keeps_libraries cbor) escapedRecord
  exact ⟨keeps_libraries, hjson, hcbor, hempty .rootDirectory rfl⟩

end Format

end NamespaceCatalog
