import Mathlib.Data.List.Dedup
import NamespaceCatalog.Proofs.Sites
import NamespaceCatalog.Table.Cached
import NamespaceCatalog.Table.Source

/-!
# One table for each name

A `Sharing` is a source of tables with those who use it: some ask it for tables, and some remember
one table each, for some time, and ask again.  An `Errand` is what may happen next, at any time: a
table is asked for, remembered or not; a table is forgotten; time passes; and the site changes in
any way by which no table is closed, so that calls may fail and come to work again.

What was answered is noted (`Sharing.past`), and `one_table_for_each_name` is said by these notes:
all who ever got a table by one name have the same table, and nobody got it by another name.  What
carries this is `Sharing.Inv`: the source's map tells exactly what was given, and what is remembered
is what was fetched last.
-/

namespace NamespaceCatalog

/-! ## What a source does when it is asked -/

namespace Source

variable {s : Source} {site : Site} {name : String}

theorem tables_load (site : Site) (path : Path) (name : String) (sync : Bool) :
    (load site path name sync).2.tables = site.tables := by
  unfold load
  split
  · rfl
  · exact Site.tables_putStream _ _ _

theorem tables_loadCompact (site : Site) (d : TableDirectory) (name : String) :
    (loadCompact site d name).2.tables = site.tables := by
  have hload := tables_load site (d.journalPath name) name d.sync
  unfold loadCompact
  split
  · next h => rwa [h] at hload
  · next h =>
    rw [h] at hload
    split
    · split
      · exact hload
      · exact (tables_load _ _ _ _).trans hload
    · exact hload

/-- A table that is made or opened gets the next number. -/
theorem create_cases (s : Source) (site : Site) (name : String) :
    (∃ e left, s.create site name = (.error e, left) ∧ left.tables = site.tables) ∨
    ∃ left, s.create site name = (.ok site.tables.size, left) ∧
      left.tables.size = site.tables.size + 1 := by
  unfold create
  cases s.directory with
  | none => exact .inr ⟨_, rfl, Array.size_push _⟩
  | some d =>
    have htables := tables_loadCompact site d name
    cases hload : loadCompact site d name with
    | mk r left =>
      rw [hload] at htables
      rw [← htables]
      cases r with
      | error e => exact .inl ⟨e, left, by simp only [hload], rfl⟩
      | ok opened => exact .inr ⟨_, by simp only [hload]; rfl, Array.size_push _⟩

/-- The source after it made or opened a table. -/
def adding (s : Source) (name : String) (id : TableId) : Source :=
  { s with tables := s.tables.insert name id, creations := s.creations + 1 }

/-- A call fails and changes nothing in the source, or it gives the table of that name, or there was
none and it gives a new one. -/
theorem get_cases (s : Source) (site : Site) (name : String) :
    (∃ e left, s.get site name = (.error e, s, left) ∧ left.tables = site.tables) ∨
    (∃ id, s.tables[name]? = some id ∧ s.get site name = (.ok id, s, site)) ∨
    ∃ left, s.tables[name]? = none ∧
      s.get site name = (.ok site.tables.size, s.adding name site.tables.size, left) ∧
      left.tables.size = site.tables.size + 1 := by
  unfold get
  by_cases hname : (!Table.isName name) = true
  · exact .inl ⟨_, site, if_pos hname, rfl⟩
  · rw [if_neg hname]
    cases hid : s.tables[name]? with
    | some id => exact .inr (.inl ⟨id, rfl, rfl⟩)
    | none =>
      rcases s.create_cases site name with ⟨e, left, h, htables⟩ | ⟨left, h, hsize⟩
      · exact .inl ⟨e, left, by rw [h], htables⟩
      · exact .inr (.inr ⟨left, rfl, by rw [h]; rfl, hsize⟩)

theorem eq_of_get_error {e : Error} {left : Source} {site' : Site}
    (h : s.get site name = (.error e, left, site')) : left = s := by
  rcases s.get_cases site name with ⟨_, _, he, -⟩ | ⟨_, -, he⟩ | ⟨_, -, he, -⟩
  · cases h.symm.trans he
    rfl
  · cases h.symm.trans he
  · cases h.symm.trans he

/-- Was the source just made, in memory or in a directory? -/
inductive Made : Source → Site → Prop
  | inMemory (site : Site) : Made .inMemory site
  | inDirectory {before site : Site} {path : Path} {sync : Bool} {s : Source} :
    Source.inDirectory before path sync = (.ok s, site) → Made s site

theorem Made.eq (h : Made s site) : s = ⟨s.directory, ∅, 0⟩ := by
  cases h with
  | inMemory => rfl
  | inDirectory h =>
    unfold Source.inDirectory at h
    split at h
    · cases h
    · cases h
      rfl

end Source

/-! ## Errands -/

/-- A change of a site by which no table is closed. -/
structure SiteChange where
  apply : Site → Site
  size_le : ∀ site, site.tables.size ≤ (apply site).tables.size

/-- What may happen to a source and those who use it.  Who remembers a table is known by a place. -/
inductive Errand
  /-- Somebody begins to remember the table of that name. -/
  | enroll (name : String) (ttl : Nat)
  /-- Somebody who remembers is asked for the table. -/
  | consult (place : Nat)
  /-- Somebody is to forget the table. -/
  | forget (place : Nat)
  /-- The source is asked for a table. -/
  | ask (name : String)
  | wait (span : Nat)
  | disturb (change : SiteChange)

/-- What was answered, or forgotten. -/
inductive Note
  /-- Was the source asked, and what was the answer? -/
  | consulted (place : Nat) (name : String) (time : Nat) (asked : Bool)
    (answer : Except Error TableId)
  | forgot (place : Nat)
  | asked (name : String) (answer : Except Error TableId)

namespace Note

/-- The name and the table, if one was given. -/
def given? : Note → Option (String × TableId)
  | consulted _ name _ _ (.ok id) => some (name, id)
  | asked name (.ok id) => some (name, id)
  | _ => none

/-- The tables that were given, and the names by which. -/
def given (past : List Note) : List (String × TableId) := past.filterMap given?

theorem given_concat (past : List Note) (note : Note) :
    given (past ++ [note]) = given past ++ note.given?.toList := by
  rw [given, List.filterMap_append]
  cases h : note.given? <;> simp [given, h]

/-- Did a call fail? -/
def Fails : Note → Prop
  | consulted _ _ _ _ answer => ∃ e, answer = .error e
  | asked _ answer => ∃ e, answer = .error e
  | forgot _ => False

theorem not_fails_of_ok {place time : Nat} {name : String} {hit : Bool} {id : TableId} :
    ¬ (consulted place name time hit (.ok id)).Fails :=
  fun h => nomatch h.choose_spec

/-- Did the one at that place fetch the table, at that time? -/
def Renews (note : Note) (place time : Nat) : Prop :=
  ∃ name id, note = .consulted place name time true (.ok id)

section Renews

variable {place place' time time' : Nat} {name : String} {answer : Except Error TableId}

@[simp] theorem renews_consulted_iff {hasAsked : Bool} :
    (consulted place' name time' hasAsked answer).Renews place time ↔
      place' = place ∧ time' = time ∧ hasAsked = true ∧ ∃ id, answer = .ok id := by
  simp [Renews]

@[simp] theorem not_renews_forgot : ¬ (forgot place').Renews place time := by
  simp [Renews]

@[simp] theorem not_renews_asked : ¬ (asked name answer).Renews place time := by
  simp [Renews]

end Renews

end Note

/-- Did the one at that place fetch the table at that time, and neither fetch it again nor forget it
since? -/
def Remembers (past : List Note) (place time : Nat) : Prop :=
  ∃ front note back, past = front ++ note :: back ∧ note.Renews place time ∧
    ∀ later ∈ back, later ≠ .forgot place ∧ ∀ time', ¬ later.Renews place time'

/-- A source with its site, and those who remember its tables. -/
structure Sharing where
  source : Source
  site : Site
  caches : List Cached
  clock : Nat
  past : List Note

namespace Sharing

/-- Asks the source, and marks that it was asked. -/
def fetch (name : String) (s : Bool × Source × Site) :
    Except Error TableId × Bool × Source × Site :=
  let (r, source, site) := s.2.1.get s.2.2 name
  (r, true, source, site)

/-- Asks the one at the place `place`, who has `c`. -/
def consult (b : Sharing) (place : Nat) (c : Cached) : Sharing :=
  let (answer, c', asked, source, site) := c.get b.clock (fetch c.name) (false, b.source, b.site)
  { b with
    source
    site
    caches := b.caches.set place c'
    past := b.past ++ [.consulted place c.name b.clock asked answer] }

/-- Does an errand. -/
def act (b : Sharing) : Errand → Sharing
  | .enroll name ttl => { b with caches := b.caches ++ [Cached.empty name ttl] }
  | .consult place =>
    match b.caches[place]? with
    | some c => b.consult place c
    | none => b
  | .forget place =>
    match b.caches[place]? with
    | some c =>
      { b with caches := b.caches.set place c.invalidate, past := b.past ++ [.forgot place] }
    | none => b
  | .ask name =>
    let (answer, source, site) := b.source.get b.site name
    { b with source, site, past := b.past ++ [.asked name answer] }
  | .wait span => { b with clock := b.clock + span }
  | .disturb change => { b with site := change.apply b.site }

/-- What becomes of a source after errands, one after the other. -/
def run (s : Source) (site : Site) (errands : List Errand) : Sharing :=
  errands.foldl act ⟨s, site, [], 0, []⟩

end Sharing

/-! ## Who remembers what -/

section Remembers

variable {past : List Note} {note : Note} {place time time' : Nat}

theorem not_remembers_nil : ¬ Remembers [] place time := by
  rintro ⟨front, note, back, e, -⟩
  simp at e

/-- What was noted last decides, if it is about that place. -/
theorem remembers_concat_iff :
    Remembers (past ++ [note]) place time ↔ note.Renews place time ∨
      (Remembers past place time ∧ note ≠ .forgot place ∧ ∀ time', ¬ note.Renews place time') := by
  constructor
  · rintro ⟨front, fetched, back, e, hfetched, hback⟩
    rcases List.eq_nil_or_concat back with rfl | ⟨back, last, rfl⟩
    · obtain ⟨-, rfl⟩ : past = front ∧ note = fetched := by simpa using e
      exact .inl hfetched
    · have e' : past ++ [note] = (front ++ fetched :: back) ++ [last] := by simpa using e
      obtain ⟨rfl, hlast⟩ := List.append_inj' e' rfl
      obtain rfl : note = last := by simpa using hlast
      obtain ⟨hforgot, hrenews⟩ := hback note (by simp)
      refine .inr ⟨⟨front, fetched, back, rfl, hfetched, fun later hlater => ?_⟩, hforgot, hrenews⟩
      exact hback later (by simp [hlater])
  · rintro (hnote | ⟨⟨front, fetched, back, rfl, hfetched, hback⟩, hforgot, hrenews⟩)
    · exact ⟨past, note, [], rfl, hnote, nofun⟩
    · refine ⟨front, fetched, back ++ [note], by simp, hfetched, fun later hlater => ?_⟩
      rcases List.mem_append.1 hlater with hlater | hlater
      · exact hback later hlater
      · rw [List.mem_singleton.1 hlater]
        exact ⟨hforgot, hrenews⟩

end Remembers

/-! ## What a source has given -/

/-- Does the source's map tell what was given?  Every table has one name. -/
structure Source.Registers (s : Source) (site : Site) (given : List (String × TableId)) : Prop where
  given : ∀ name id, (name, id) ∈ given ↔ s.tables[name]? = some id
  creations : s.creations = s.tables.size
  lt_size : ∀ (name : String) (id : TableId), s.tables[name]? = some id → id < site.tables.size
  name : ∀ (a b : String) (id : TableId),
    s.tables[a]? = some id → s.tables[b]? = some id → a = b

namespace Source.Registers

variable {s : Source} {site site' : Site} {given : List (String × TableId)} {name : String}

theorem mono (h : s.Registers site given) (hsize : site.tables.size ≤ site'.tables.size) :
    s.Registers site' given :=
  { h with lt_size := fun name id hid => Nat.lt_of_lt_of_le (h.lt_size name id hid) hsize }

/-- A table is given once more. -/
theorem again (h : s.Registers site given) {id : TableId} (hid : s.tables[name]? = some id) :
    s.Registers site (given ++ [(name, id)]) := by
  refine { h with given := fun n i => ?_ }
  rw [List.mem_append, List.mem_singleton, h.given, or_iff_left_of_imp]
  rintro e
  cases e
  exact hid

/-- A new table is given. -/
theorem adding (h : s.Registers site given) (hnone : s.tables[name]? = none)
    (hsize : site'.tables.size = site.tables.size + 1) :
    (s.adding name site.tables.size).Registers site' (given ++ [(name, site.tables.size)]) := by
  have hget : ∀ n : String, (s.adding name site.tables.size).tables[n]? =
      if name = n then some site.tables.size else s.tables[n]? := by
    intro n
    simp [Source.adding, Std.ExtTreeMap.getElem?_insert]
  have hmem : name ∉ s.tables := by
    intro hmem
    rw [Std.ExtTreeMap.mem_iff_isSome_getElem?, hnone] at hmem
    cases hmem
  constructor
  · intro n i
    rw [List.mem_append, List.mem_singleton, h.given, hget]
    by_cases e : name = n
    · subst e
      simp [hnone, eq_comm]
    · have hne : (n, i) ≠ (name, site.tables.size) := fun h => e (congrArg Prod.fst h).symm
      simp [e, hne]
  · have := h.creations
    simp [Source.adding, Std.ExtTreeMap.size_insert, hmem, this]
  · intro n i hi
    rw [hget] at hi
    split at hi
    · obtain rfl := Option.some.inj hi
      rw [hsize]
      exact Nat.lt_succ_self _
    · rw [hsize]
      exact Nat.lt_succ_of_lt (h.lt_size n i hi)
  · intro a b i ha hb
    rw [hget] at ha hb
    split at ha
    · obtain rfl := Option.some.inj ha
      split at hb
      · next ea eb => exact ea.symm.trans eb
      · exact absurd (h.lt_size b _ hb) (Nat.lt_irrefl _)
    · split at hb
      · obtain rfl := Option.some.inj hb
        exact absurd (h.lt_size a _ ha) (Nat.lt_irrefl _)
      · exact h.name a b i ha hb

end Source.Registers

namespace Sharing

variable {b : Sharing} {place : Nat} {c : Cached}

/-! ## What one errand does -/

/-- Who remembers is asked: the table is remembered and not too old, and nothing happens; or the
source is asked, and if it fails, nothing else changes. -/
theorem consult_cases (hc : b.caches[place]? = some c) :
    (∃ id time, c.slot = some (id, time) ∧ b.clock - time < c.ttl ∧
      b.consult place c = { b with
        past := b.past ++ [.consulted place c.name b.clock false (.ok id)] }) ∨
    ((∀ id time, c.slot = some (id, time) → c.ttl ≤ b.clock - time) ∧
      ((∃ e source site, b.source.get b.site c.name = (.error e, source, site) ∧
        b.consult place c = { b with
          source
          site
          past := b.past ++
            [.consulted place c.name b.clock true (.error (.initialization c.name e))] }) ∨
      ∃ id source site, b.source.get b.site c.name = (.ok id, source, site) ∧
        b.consult place c = { b with
          source
          site
          caches := b.caches.set place { c with slot := some (id, b.clock) }
          past := b.past ++ [.consulted place c.name b.clock true (.ok id)] })) := by
  have hset : b.caches.set place c = b.caches := by
    obtain ⟨hlt, rfl⟩ := List.getElem?_eq_some_iff.1 hc
    exact List.set_getElem_self hlt
  unfold consult Cached.get
  cases hfresh : c.fresh? b.clock with
  | some id =>
    unfold Cached.fresh? at hfresh
    split at hfresh
    · next id' time hslot =>
      split at hfresh
      · next hage =>
        obtain rfl := Option.some.inj hfresh
        exact .inl ⟨id', time, hslot, hage, by simp only [hset]⟩
      · cases hfresh
    · cases hfresh
  | none =>
    refine .inr ⟨fun id time hslot => ?_, ?_⟩
    · simp only [Cached.fresh?, hslot] at hfresh
      split at hfresh
      · cases hfresh
      · omega
    · cases hget : b.source.get b.site c.name with
      | mk r rest =>
        cases r with
        | error e => exact .inl ⟨e, rest.1, rest.2, rfl, by simp only [fetch, hget, hset]⟩
        | ok id => exact .inr ⟨id, rest.1, rest.2, rfl, by simp only [fetch, hget]⟩

/-! ## What holds at every moment -/

/-- Is what is remembered what was fetched last?  The source still has it. -/
structure Recollects (caches : List Cached) (tables : Std.ExtTreeMap String TableId) (clock : Nat)
    (past : List Note) : Prop where
  slot : ∀ (place : Nat) (c : Cached), caches[place]? = some c → ∀ time,
    Remembers past place time ↔ ∃ id, c.slot = some (id, time)
  kept : ∀ (place : Nat) (c : Cached) id time, caches[place]? = some c →
    c.slot = some (id, time) → tables[c.name]? = some id ∧ time ≤ clock
  lt_length : ∀ place time, Remembers past place time → place < caches.length

/-- What holds at every moment. -/
structure Inv (b : Sharing) : Prop where
  registers : b.source.Registers b.site (Note.given b.past)
  recollects : Recollects b.caches b.source.tables b.clock b.past

namespace Recollects

variable {caches : List Cached} {tables tables' : Std.ExtTreeMap String TableId}
  {clock clock' : Nat} {past : List Note} {note : Note}

theorem mono (h : Recollects caches tables clock past)
    (ht : ∀ (name : String) (id : TableId), tables[name]? = some id → tables'[name]? = some id)
    (hclock : clock ≤ clock') : Recollects caches tables' clock' past := by
  refine { h with kept := fun place c id time hc hslot => ?_ }
  obtain ⟨hid, htime⟩ := h.kept place c id time hc hslot
  exact ⟨ht _ _ hid, Nat.le_trans htime hclock⟩

/-- Nobody fetches or forgets. -/
theorem idle (h : Recollects caches tables clock past) (hforgot : ∀ place, note ≠ .forgot place)
    (hrenews : ∀ place time, ¬ note.Renews place time) :
    Recollects caches tables clock (past ++ [note]) := by
  have hsame : ∀ place time, Remembers (past ++ [note]) place time ↔ Remembers past place time := by
    intro place time
    rw [remembers_concat_iff, or_iff_right (hrenews place time)]
    exact and_iff_left ⟨hforgot place, hrenews place⟩
  exact {
    slot := fun place c hc time => (hsame place time).trans (h.slot place c hc time)
    kept := h.kept
    lt_length := fun place time hr => h.lt_length place time ((hsame place time).1 hr) }

/-- Somebody begins to remember. -/
theorem enroll (h : Recollects caches tables clock past) (name : String) (ttl : Nat) :
    Recollects (caches ++ [Cached.empty name ttl]) tables clock past := by
  have hcases : ∀ (place : Nat) (c : Cached),
      (caches ++ [Cached.empty name ttl])[place]? = some c →
      caches[place]? = some c ∨ place = caches.length ∧ c = Cached.empty name ttl := by
    intro place c hc
    rcases Nat.lt_or_ge place caches.length with hlt | hge
    · rw [List.getElem?_append_left hlt] at hc
      exact .inl hc
    · rw [List.getElem?_append_right hge, List.getElem?_singleton] at hc
      split at hc
      · exact .inr ⟨by omega, (Option.some.inj hc).symm⟩
      · cases hc
  constructor
  · intro place c hc time
    rcases hcases place c hc with hc | ⟨rfl, rfl⟩
    · exact h.slot place c hc time
    · refine iff_of_false (fun hr => ?_) (by simp [Cached.empty])
      exact Nat.lt_irrefl _ (h.lt_length _ time hr)
  · intro place c id time hc hslot
    rcases hcases place c hc with hc | ⟨-, rfl⟩
    · exact h.kept place c id time hc hslot
    · cases hslot
  · intro place time hr
    rw [List.length_append]
    exact Nat.lt_add_right _ (h.lt_length place time hr)

variable {place : Nat} {c : Cached}

/-- What one remembers is put in place of what was remembered there. -/
theorem replace (h : Recollects caches tables clock past) (hc : caches[place]? = some c)
    (slot : Option (TableId × Nat))
    (hslot : ∀ id time, slot = some (id, time) → tables[c.name]? = some id ∧ time ≤ clock)
    (hplace : ∀ time, Remembers (past ++ [note]) place time ↔ ∃ id, slot = some (id, time))
    (hothers : ∀ other, other ≠ place → note ≠ .forgot other ∧ ∀ time, ¬ note.Renews other time) :
    Recollects (caches.set place { c with slot }) tables clock (past ++ [note]) := by
  obtain ⟨hlt, -⟩ := List.getElem?_eq_some_iff.1 hc
  have hsame : ∀ other, other ≠ place → ∀ time,
      Remembers (past ++ [note]) other time ↔ Remembers past other time := by
    intro other hne time
    rw [remembers_concat_iff, or_iff_right ((hothers other hne).2 time)]
    exact and_iff_left (hothers other hne)
  constructor
  · intro other d hd time
    by_cases e : other = place
    · subst e
      rw [List.getElem?_set_self hlt] at hd
      cases hd
      exact hplace time
    · rw [List.getElem?_set_ne (Ne.symm e)] at hd
      exact (hsame other e time).trans (h.slot other d hd time)
  · intro other d id time hd hslot'
    by_cases e : other = place
    · subst e
      rw [List.getElem?_set_self hlt] at hd
      cases hd
      exact hslot id time hslot'
    · rw [List.getElem?_set_ne (Ne.symm e)] at hd
      exact h.kept other d id time hd hslot'
  · intro other time hr
    rw [List.length_set]
    by_cases e : other = place
    · exact e ▸ hlt
    · exact h.lt_length other time ((hsame other e time).1 hr)

end Recollects

/-- The source is asked by a name. -/
theorem Inv.get (h : b.Inv) {name : String} {r : Except Error TableId} {source : Source}
    {site : Site} (hget : b.source.get b.site name = (r, source, site)) :
    (∀ e, r = .error e → source = b.source ∧ source.Registers site (Note.given b.past)) ∧
    (∀ id, r = .ok id → source.tables[name]? = some id ∧
      source.Registers site (Note.given b.past ++ [(name, id)])) ∧
    ∀ (other : String) (id : TableId),
      b.source.tables[other]? = some id → source.tables[other]? = some id := by
  rcases b.source.get_cases b.site name with
    ⟨e, left, he, htables⟩ | ⟨id, hid, he⟩ | ⟨left, hnone, he, hsize⟩
  · cases hget.symm.trans he
    refine ⟨fun _ _ => ⟨rfl, h.registers.mono ?_⟩, fun _ hr => (nomatch hr), fun _ _ ho => ho⟩
    rw [htables]
  · cases hget.symm.trans he
    refine ⟨fun _ hr => (nomatch hr), fun i hr => ?_, fun _ _ ho => ho⟩
    cases hr
    exact ⟨hid, h.registers.again hid⟩
  · cases hget.symm.trans he
    refine ⟨fun _ hr => (nomatch hr), fun i hr => ?_, fun other id ho => ?_⟩
    · cases hr
      exact ⟨by simp [Source.adding], h.registers.adding hnone hsize⟩
    · have hne : name ≠ other := fun e => by
        rw [← e, hnone] at ho
        cases ho
      simpa [Source.adding, Std.ExtTreeMap.getElem?_insert, hne] using ho

theorem Inv.consult (h : b.Inv) (hc : b.caches[place]? = some c) : (b.consult place c).Inv := by
  rcases consult_cases hc with ⟨id, time, hslot, -, e⟩ |
    ⟨-, ⟨err, source, site, hget, e⟩ | ⟨id, source, site, hget, e⟩⟩
  · rw [e]
    refine ⟨?_, h.recollects.idle nofun fun p t => by simp⟩
    rw [Note.given_concat]
    exact h.registers.again (h.recollects.kept place c id time hc hslot).1
  · rw [e]
    obtain ⟨hsource, hregisters⟩ := (h.get hget).1 err rfl
    subst hsource
    refine ⟨?_, h.recollects.idle nofun fun p t => by simp⟩
    rw [Note.given_concat]
    exact (List.append_nil (Note.given b.past)).symm ▸ hregisters
  · rw [e]
    obtain ⟨-, hok, hkeeps⟩ := h.get hget
    obtain ⟨hid, hregisters⟩ := hok id rfl
    refine ⟨?_, ?_⟩
    · rw [Note.given_concat]
      exact hregisters
    · refine (h.recollects.mono hkeeps (Nat.le_refl _)).replace hc (some (id, b.clock)) ?_ ?_ ?_
      · rintro i t ⟨⟩
        exact ⟨hid, Nat.le_refl _⟩
      · intro time
        rw [remembers_concat_iff]
        simp
      · exact fun other hne => ⟨nofun, fun t => by simp [hne.symm]⟩

theorem Inv.act (h : b.Inv) (errand : Errand) : (b.act errand).Inv := by
  cases errand with
  | enroll name ttl => exact ⟨h.registers, h.recollects.enroll name ttl⟩
  | consult place =>
    simp only [Sharing.act]
    split
    · next c hc => exact h.consult hc
    · exact h
  | forget place =>
    simp only [Sharing.act]
    split
    · next c hc =>
      refine ⟨?_, h.recollects.replace hc none nofun ?_ ?_⟩
      · rw [Note.given_concat]
        exact (List.append_nil (Note.given b.past)).symm ▸ h.registers
      · intro time
        rw [remembers_concat_iff]
        simp
      · exact fun other hne => ⟨fun e => hne (Note.forgot.inj e).symm, fun t => by simp⟩
    · exact h
  | ask name =>
    simp only [Sharing.act]
    cases hget : b.source.get b.site name with
    | mk r rest =>
      obtain ⟨source, site⟩ := rest
      obtain ⟨herror, hok, hkeeps⟩ := h.get hget
      have hidle : Recollects b.caches source.tables b.clock (b.past ++ [.asked name r]) :=
        (h.recollects.mono hkeeps (Nat.le_refl _)).idle nofun fun p t => by simp
      refine ⟨?_, hidle⟩
      rw [Note.given_concat]
      cases r with
      | error e => exact (List.append_nil (Note.given b.past)).symm ▸ (herror e rfl).2
      | ok id => exact (hok id rfl).2
  | wait span => exact ⟨h.registers, h.recollects.mono (fun _ _ ho => ho) (Nat.le_add_right _ _)⟩
  | disturb change => exact ⟨h.registers.mono (change.size_le _), h.recollects⟩

theorem inv_run {s : Source} {site : Site} (hs : s.Made site) (errands : List Errand) :
    (run s site errands).Inv := by
  have hstart : ∀ b : Sharing, b.Inv → (errands.foldl Sharing.act b).Inv := by
    induction errands with
    | nil => exact fun b hb => hb
    | cons errand errands ih => exact fun b hb => ih _ (hb.act errand)
  refine hstart _ ⟨?_, ?_⟩
  · rw [hs.eq]
    constructor <;> simp [Note.given]
  · exact ⟨by simp, by simp, fun _ _ hr => absurd hr not_remembers_nil⟩

/-! ## The theorem -/

theorem creations_eq (h : b.Inv) :
    b.source.creations = ((Note.given b.past).map Prod.fst).dedup.length := by
  have hmem : ∀ name, name ∈ b.source.tables.keys ↔
      name ∈ ((Note.given b.past).map Prod.fst).dedup := by
    intro name
    rw [List.mem_dedup, List.mem_map, Std.ExtTreeMap.mem_keys,
      Std.ExtTreeMap.mem_iff_isSome_getElem?, Option.isSome_iff_exists]
    constructor
    · rintro ⟨id, hid⟩
      exact ⟨(name, id), (h.registers.given name id).2 hid, rfl⟩
    · rintro ⟨⟨n, id⟩, hgiven, rfl⟩
      exact ⟨id, (h.registers.given n id).1 hgiven⟩
  have hkeys : b.source.tables.keys.Nodup := b.source.tables.nodup_keys
  rw [h.registers.creations, ← Std.ExtTreeMap.length_keys]
  exact ((List.perm_ext_iff_of_nodup hkeys (List.nodup_dedup _)).2 hmem).length_eq

/-- A call that fails changes nothing but the site. -/
theorem act_of_fails {errand : Errand} {note : Note}
    (hnote : (b.act errand).past = b.past ++ [note]) (hfails : note.Fails) :
    (b.act errand).source = b.source ∧ (b.act errand).caches = b.caches := by
  have hself : ∀ past : List Note, past ≠ past ++ [note] := fun past => by simp
  cases errand with
  | enroll name ttl => exact absurd hnote (hself b.past)
  | wait span => exact absurd hnote (hself b.past)
  | disturb change => exact absurd hnote (hself b.past)
  | consult place =>
    simp only [act] at hnote ⊢
    split at hnote
    · next c hc =>
      rcases consult_cases hc with ⟨id, time, -, -, e⟩ |
        ⟨-, ⟨err, source, site, hget, e⟩ | ⟨id, source, site, -, e⟩⟩
      · rw [e, List.append_cancel_left_eq, List.singleton_inj] at hnote
        exact absurd (hnote ▸ hfails) Note.not_fails_of_ok
      · rw [e]
        exact ⟨Source.eq_of_get_error hget, rfl⟩
      · rw [e, List.append_cancel_left_eq, List.singleton_inj] at hnote
        exact absurd (hnote ▸ hfails) Note.not_fails_of_ok
    · exact absurd hnote (hself b.past)
  | forget place =>
    simp only [act] at hnote
    split at hnote
    · rw [List.append_cancel_left_eq, List.singleton_inj] at hnote
      subst hnote
      exact hfails.elim
    · exact absurd hnote (hself b.past)
  | ask name =>
    simp only [act, List.append_cancel_left_eq, List.singleton_inj] at hnote ⊢
    subst hnote
    obtain ⟨err, herr⟩ := hfails
    exact ⟨Source.eq_of_get_error (Prod.ext herr rfl), trivial⟩

/-- Who remembers asks the source if nothing is remembered, or if it was fetched too long ago. -/
theorem Inv.exists_consulted (h : b.Inv) (hc : b.caches[place]? = some c) :
    ∃ asked answer, (b.act (.consult place)).past =
        b.past ++ [.consulted place c.name b.clock asked answer] ∧
      (asked = true ↔ (∀ time, ¬ Remembers b.past place time) ∨
        ∃ time, Remembers b.past place time ∧ time + c.ttl ≤ b.clock) := by
  have hact : b.act (.consult place) = b.consult place c := by simp only [Sharing.act, hc]
  have hslot := h.recollects.slot place c hc
  rw [hact]
  rcases consult_cases hc with ⟨id, time, hs, hage, e⟩ | ⟨hold, hasked⟩
  · refine ⟨false, .ok id, by rw [e], iff_of_false Bool.false_ne_true ?_⟩
    rintro (hnone | ⟨time', hr, hle⟩)
    · exact hnone time ((hslot time).2 ⟨id, hs⟩)
    · obtain ⟨id', hs'⟩ := (hslot time').1 hr
      rw [hs, Option.some.injEq, Prod.mk.injEq] at hs'
      omega
  · have hwhen : (∀ time, ¬ Remembers b.past place time) ∨
        ∃ time, Remembers b.past place time ∧ time + c.ttl ≤ b.clock := by
      cases hs : c.slot with
      | none =>
        refine .inl fun time hr => ?_
        obtain ⟨id, hid⟩ := (hslot time).1 hr
        rw [hs] at hid
        cases hid
      | some kept =>
        obtain ⟨id, time⟩ := kept
        have hage := hold id time hs
        have hle := (h.recollects.kept place c id time hc hs).2
        exact .inr ⟨time, (hslot time).2 ⟨id, hs⟩, by omega⟩
    rcases hasked with ⟨err, source, site, -, e⟩ | ⟨id, source, site, -, e⟩
    · exact ⟨true, _, by rw [e], iff_of_true rfl hwhen⟩
    · exact ⟨true, _, by rw [e], iff_of_true rfl hwhen⟩

/-- Whatever happens to a source and to those who use it: all who got a table by one name have the
same one, and it was given by no other name; as many tables were made or opened as names were
answered with one; a call that fails leaves the source and all that is remembered as they were; and
who remembers asks the source exactly if there was no fetch since it was made to forget, or the
last one is at least as old as what it remembers may be. -/
theorem one_table_for_each_name {s : Source} {site : Site} (hs : s.Made site)
    {errands : List Errand} (hb : run s site errands = b) :
    (∀ name i j, (name, i) ∈ Note.given b.past → (name, j) ∈ Note.given b.past → i = j) ∧
    (∀ n m i, (n, i) ∈ Note.given b.past → (m, i) ∈ Note.given b.past → n = m) ∧
    b.source.creations = ((Note.given b.past).map Prod.fst).dedup.length ∧
    (∀ errand note, (b.act errand).past = b.past ++ [note] → note.Fails →
      (b.act errand).source = b.source ∧ (b.act errand).caches = b.caches) ∧
    ∀ (place : Nat) (c : Cached), b.caches[place]? = some c → ∃ asked answer,
      (b.act (.consult place)).past = b.past ++ [.consulted place c.name b.clock asked answer] ∧
      (asked = true ↔ (∀ time, ¬ Remembers b.past place time) ∨
        ∃ time, Remembers b.past place time ∧ time + c.ttl ≤ b.clock) := by
  have h : b.Inv := hb ▸ inv_run hs errands
  refine ⟨?_, ?_, creations_eq h, fun errand note => act_of_fails, fun place c hc =>
    h.exists_consulted hc⟩
  · intro name i j hi hj
    rw [h.registers.given] at hi hj
    exact Option.some.inj (hi.symm.trans hj)
  · intro n m i hn hm
    rw [h.registers.given] at hn hm
    exact h.registers.name n m i hn hm

/-- Two remember the table `a`, for ten nanoseconds and not at all; a name is refused; and `b` is
asked for in between. -/
def mixedErrands : List Errand :=
  [.enroll "a" 10, .enroll "a" 0, .consult 0, .wait 10, .ask "a/b", .consult 1, .ask "b", .forget 1,
    .consult 0]

/-- Only two tables were made. -/
theorem one_table_for_each_name_of_mixed :
    Note.given (run .inMemory Site.empty mixedErrands).past =
        [("a", 0), ("a", 0), ("b", 1), ("a", 0)] ∧
      (run .inMemory Site.empty mixedErrands).source.creations = 2 := by
  obtain ⟨-, -, hcreations, -⟩ :=
    one_table_for_each_name (.inMemory _) (rfl : run .inMemory Site.empty mixedErrands = _)
  rw [hcreations, and_iff_left_of_imp]
  · decide +kernel
  · intro hgiven
    rw [hgiven]
    decide

end Sharing

end NamespaceCatalog
