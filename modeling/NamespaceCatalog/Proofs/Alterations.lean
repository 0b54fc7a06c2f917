import NamespaceCatalog.Proofs.Disks

/-!
# Where a disk is altered

A disk is tidy if no file is at two places and no file that is still to be made is at any.  On a
tidy disk a file is at one place, so what is done to it can be seen there only: each operation on
files alters the disk at the places it names, and leaves all directories (`Alters`).
-/

namespace NamespaceCatalog.Disk

variable {d d' e : Disk} {path : Path} {place other : Place} {id : FileId} {bs : Bytes}
  {node : Node} {touched more : List Place}

/-! ## Tidy disks -/

/-- No file is at two places, and the files still to be made are at none. -/
structure Tidy (d : Disk) : Prop where
  unique : ∀ place other id, d.at? place = some (.file id) → d.at? other = some (.file id) →
    place = other
  numbered : ∀ place id, d.at? place = some (.file id) → id < d.nextFile

theorem tidy_empty : empty.Tidy := by
  have hnone : ∀ place id, empty.at? place ≠ some (.file id) := by
    intro place id h
    unfold at? empty at h
    split at h
    · cases h
    · simp at h
  exact ⟨fun place _ id h => absurd h (hnone place id),
    fun place id h => absurd h (hnone place id)⟩

theorem Tidy.of_at?_eq (h : d.Tidy) (hat : ∀ place, d'.at? place = d.at? place)
    (hn : d.nextFile ≤ d'.nextFile) : d'.Tidy where
  unique place other id hp ho :=
    h.unique place other id (hat place ▸ hp) (hat other ▸ ho)
  numbered place id hp := Nat.lt_of_lt_of_le (h.numbered place id (hat place ▸ hp)) hn

/-- A file may be put where it is the only one of its number. -/
theorem Tidy.insert (h : d.Tidy) (hp : place ≠ [])
    (hnode : ∀ id, node = .file id →
      id < d.nextFile ∧ ∀ other, d.at? other = some (.file id) → other = place) :
    Tidy { d with nodes := d.nodes.insert place node } := by
  have hat := at?_insert d hp node
  refine ⟨fun p q id hp hq => ?_, fun p id hp => ?_⟩
  · rw [hat] at hp hq
    by_cases hpp : p = place
    · by_cases hqp : q = place
      · exact hpp.trans hqp.symm
      · rw [if_pos hpp, Option.some.injEq] at hp
        rw [if_neg hqp] at hq
        exact absurd ((hnode id hp).2 q hq) hqp
    · rw [if_neg hpp] at hp
      by_cases hqp : q = place
      · rw [if_pos hqp, Option.some.injEq] at hq
        exact absurd ((hnode id hq).2 p hp) hpp
      · rw [if_neg hqp] at hq
        exact h.unique p q id hp hq
  · rw [hat] at hp
    split at hp
    · exact (hnode id (Option.some.inj hp)).1
    · exact h.numbered p id hp

theorem Tidy.erase (h : d.Tidy) (hp : place ≠ []) :
    Tidy { d with nodes := d.nodes.erase place } := by
  have hsub : ∀ p id, at? { d with nodes := d.nodes.erase place } p = some (.file id) →
      d.at? p = some (.file id) := by
    intro p id h
    rw [at?_erase d hp] at h
    split at h
    · cases h
    · exact h
  exact ⟨fun p q id hp hq => h.unique p q id (hsub p id hp) (hsub q id hq),
    fun p id hp => h.numbered p id (hsub p id hp)⟩

theorem Tidy.createDir (h : d.Tidy) (hd : d.createDir path = .ok d') : d'.Tidy := by
  unfold Disk.createDir at hd
  split at hd
  · cases hd
  · split at hd
    · cases hd
      exact h
    · cases hd
    · next hp =>
      cases hd
      apply h.insert (ne_nil_of_at? (d := d) (by simp [hp]))
      intro id hid
      cases hid

theorem Tidy.createEach (h : d.Tidy) (paths : List Path) : (d.createEach paths).2.Tidy := by
  induction paths generalizing d with
  | nil => exact h
  | cons path paths ih =>
    unfold Disk.createEach
    cases hd : d.createDir path with
    | error fault => exact h
    | ok next => exact ih (h.createDir hd)

theorem Tidy.createDirs (h : d.Tidy) (path : Path) : (d.createDirs path).2.Tidy := by
  unfold Disk.createDirs
  split
  · exact h
  · exact h.createEach _

/-! ## Alterations -/

/-- Is the first disk tidy, with the directories of the second, and does it differ from it at most
in the files at the touched places? -/
structure Alters (d' d : Disk) (touched : List Place) : Prop where
  tidy : d'.Tidy
  directory : ∀ place, d'.at? place = some .directory ↔ d.at? place = some .directory
  elsewhere : ∀ place, place ∉ touched → d'.at? place = d.at? place
  bytes : ∀ place, place ∉ touched → ∀ id, d.at? place = some (.file id) → d'.read id = d.read id

/-- The bytes of the file at a place, none if there is no file. -/
def bytesAt (d : Disk) (place : Place) : Bytes :=
  match d.at? place with
  | some (.file id) => d.read id
  | _ => []

theorem bytesAt_of_file (h : d.at? place = some (.file id)) : d.bytesAt place = d.read id := by
  simp only [bytesAt, h]

theorem bytesAt_of_none (h : d.at? place = none) : d.bytesAt place = [] := by
  simp only [bytesAt, h]

theorem Alters.refl (h : d.Tidy) (touched : List Place) : d.Alters d touched :=
  ⟨h, fun _ => .rfl, fun _ _ => rfl, fun _ _ _ _ => rfl⟩

theorem Alters.trans (h : e.Alters d' touched) (h' : d'.Alters d touched) : e.Alters d touched where
  tidy := h.tidy
  directory place := (h.directory place).trans (h'.directory place)
  elsewhere place hp := (h.elsewhere place hp).trans (h'.elsewhere place hp)
  bytes place hp id hid :=
    (h.bytes place hp id ((h'.elsewhere place hp).trans hid)).trans (h'.bytes place hp id hid)

theorem Alters.mono (h : d'.Alters d touched) (hsub : touched ⊆ more) : d'.Alters d more where
  tidy := h.tidy
  directory := h.directory
  elsewhere place hp := h.elsewhere place fun hm => hp (hsub hm)
  bytes place hp := h.bytes place fun hm => hp (hsub hm)

theorem Alters.extends (h : d'.Alters d touched) : d'.Extends d :=
  fun place => (h.directory place).2

theorem Alters.extended (h : d'.Alters d touched) : d.Extends d' :=
  fun place => (h.directory place).1

theorem Alters.bytesAt_eq (h : d'.Alters d touched) (hp : place ∉ touched) :
    d'.bytesAt place = d.bytesAt place := by
  unfold bytesAt
  rw [h.elsewhere place hp]
  split
  · next id hid => exact h.bytes place hp id hid
  · rfl

/-- A file can be where one could be before. -/
theorem Alters.takesFile_iff (h : d'.Alters d touched) : d'.TakesFile path ↔ d.TakesFile path := by
  constructor
  · rintro ⟨place, hl, hp⟩
    exact ⟨place, h.extended.locate hl, fun hd => hp ((h.directory place).2 hd)⟩
  · rintro ⟨place, hl, hp⟩
    exact ⟨place, h.extends.locate hl, fun hd => hp ((h.directory place).1 hd)⟩

/-- A path that leads to no touched place leads to the same as before. -/
theorem Alters.node?_eq (h : d'.Alters d touched)
    (hp : ∀ place, d.locate path = .ok place → place ∉ touched) : d'.node? path = d.node? path := by
  unfold node?
  cases hl : d.locate path with
  | ok place =>
    rw [h.extends.locate hl]
    exact h.elsewhere place (hp place hl)
  | error fault =>
    cases hl' : d'.locate path with
    | ok place => cases hl.symm.trans (h.extended.locate hl')
    | error fault' => rfl

/-! ## Operations on files -/

theorem alters_write (h : d.Tidy) (hp : d.at? place = some (.file id)) (bs : Bytes) :
    (d.write id bs).Alters d [place] := by
  refine ⟨h.of_at?_eq (fun _ => rfl) (Nat.le_refl _), fun _ => .rfl, fun _ _ => rfl,
    fun other ho file hfile => ?_⟩
  rw [read_write, if_neg]
  rintro rfl
  exact ho (List.mem_singleton.2 (h.unique other place file hfile hp))

theorem bytesAt_write (hp : d.at? place = some (.file id)) (bs : Bytes) :
    (d.write id bs).bytesAt place = bs := by
  have hp' : (d.write id bs).at? place = some (.file id) := hp
  rw [bytesAt_of_file hp', read_write, if_pos rfl]

/-- A file is opened, with what was at its place. -/
theorem alters_openFile (h : d.Tidy) (ho : d.openFile path = .ok (id, d')) :
    ∃ place, d.locate path = .ok place ∧ d'.Alters d [place] ∧ d'.at? place = some (.file id) ∧
      d'.read id = d.bytesAt place := by
  cases hl : d.locate path with
  | error fault => simp [openFile, hl] at ho
  | ok place =>
    refine ⟨place, rfl, ?_⟩
    cases hp : d.at? place with
    | some node =>
      cases node with
      | directory => simp [openFile, hl, hp] at ho
      | file file =>
        rw [openFile_of_file hl hp, Except.ok.injEq, Prod.mk.injEq] at ho
        obtain ⟨rfl, rfl⟩ := ho
        exact ⟨.refl h _, hp, (bytesAt_of_file hp).symm⟩
    | none =>
      have hne : place ≠ [] := ne_nil_of_at? (d := d) (by simp [hp])
      have hnew : ∀ other, d.at? other ≠ some (.file d.nextFile) :=
        fun other ho => Nat.lt_irrefl _ (h.numbered other _ ho)
      simp only [openFile, hl, hp, Except.ok.injEq, Prod.mk.injEq] at ho
      obtain ⟨rfl, rfl⟩ := ho
      have htidy : (d.newFile []).2.Tidy := h.of_at?_eq (fun _ => rfl) (Nat.le_succ _)
      have hat := at?_insert (d.newFile []).2 hne (.file (d.newFile []).1)
      refine ⟨⟨htidy.insert hne fun id hid => ?_, fun other => ?_, fun other ho => ?_,
        fun other ho file hfile => ?_⟩, ?_, ?_⟩
      · cases hid
        exact ⟨Nat.lt_succ_self _, fun other ho => absurd ho (hnew other)⟩
      · rw [hat]
        split
        · next he => simp [he, hp]
        · exact .rfl
      · rw [hat, if_neg fun he => ho (List.mem_singleton.2 he)]
        rfl
      · refine (read_write d d.nextFile file []).trans (if_neg ?_)
        rintro rfl
        exact hnew other hfile
      · rw [hat, if_pos rfl]
      · rw [bytesAt_of_none hp]
        exact d.read_newFile []

theorem alters_remove (h : d.Tidy) (hr : d.remove path = .ok d') :
    ∃ place, d.locate path = .ok place ∧ d'.Alters d [place] ∧ d'.at? place = none := by
  cases hl : d.locate path with
  | error fault => simp [remove, hl] at hr
  | ok place =>
    refine ⟨place, rfl, ?_⟩
    cases hp : d.at? place with
    | none => simp [remove, hl, hp] at hr
    | some node =>
      cases node with
      | directory => simp [remove, hl, hp] at hr
      | file id =>
        have hne : place ≠ [] := ne_nil_of_at? (d := d) (by simp [hp])
        have hat := at?_erase d hne
        simp only [remove, hl, hp, Except.ok.injEq] at hr
        subst hr
        refine ⟨⟨h.erase hne, fun other => ?_, fun other ho => ?_, fun _ _ _ _ => rfl⟩, ?_⟩
        · rw [hat]
          split
          · next he => simp [he, hp]
          · exact .rfl
        · rw [hat, if_neg fun he => ho (List.mem_singleton.2 he)]
        · rw [hat, if_pos rfl]

/-- The file at one place is put at another. -/
theorem alters_rename (h : d.Tidy) {target : Path} (hr : d.rename path target = .ok d') :
    ∃ place next, d.locate path = .ok place ∧ d.locate target = .ok next ∧
      d'.Alters d [place, next] ∧ (∃ id, d'.at? next = some (.file id)) ∧
      d'.bytesAt next = d.bytesAt place := by
  cases hl : d.locate path with
  | error fault => simp [rename, hl] at hr
  | ok place =>
    cases hl' : d.locate target with
    | error fault => simp [rename, hl, hl'] at hr
    | ok next =>
      refine ⟨place, next, rfl, rfl, ?_⟩
      cases hp : d.at? place with
      | none => simp [rename, hl, hl', hp] at hr
      | some node =>
        cases node with
        | directory => simp [rename, hl, hl', hp] at hr
        | file id =>
          have hplace : place ≠ [] := ne_nil_of_at? (d := d) (by simp [hp])
          have hn : d.at? next ≠ some .directory := by
            intro hn
            simp [rename, hl, hl', hp, hn] at hr
          have hnext : next ≠ [] := ne_nil_of_at? hn
          have hd : d' = { d with nodes := (d.nodes.erase place).insert next (.file id) } := by
            simp only [rename, hl, hl', hp] at hr
            exact (Except.ok.inj hr).symm
          have hat : ∀ other, d'.at? other = if other = next then some (.file id)
              else if other = place then none else d.at? other := by
            intro other
            rw [hd, at?_insert { d with nodes := d.nodes.erase place } hnext, at?_erase d hplace]
          have hid : d'.at? next = some (.file id) := by rw [hat, if_pos rfl]
          refine ⟨⟨?_, fun other => ?_, fun other ho => ?_, fun _ _ _ _ => by rw [hd]; rfl⟩,
            ⟨id, hid⟩, ?_⟩
          · rw [hd]
            refine (h.erase hplace).insert hnext fun file hfile => ?_
            cases hfile
            refine ⟨h.numbered place id hp, fun other ho => ?_⟩
            rw [at?_erase d hplace] at ho
            split at ho
            · cases ho
            · next hne => exact absurd (h.unique other place id ho hp) hne
          · rw [hat]
            split
            · next he => simp [he, hn]
            · split
              · next he => simp [he, hp]
              · exact .rfl
          · rw [List.mem_cons, List.mem_singleton, not_or] at ho
            rw [hat, if_neg ho.2, if_neg ho.1]
          · rw [bytesAt_of_file hid, bytesAt_of_file hp, hd]
            rfl

/-- Locks are not on files. -/
theorem alters_unlock (h : d.Tidy) (id : FileId) (touched : List Place) :
    (d.unlock id).Alters d touched :=
  ⟨h.of_at?_eq (fun _ => rfl) (Nat.le_refl _), fun _ => .rfl, fun _ _ => rfl, fun _ _ _ _ => rfl⟩

theorem alters_lock? (h : d.Tidy) (hl : d.lock? id = some d') (touched : List Place) :
    d'.Alters d touched := by
  unfold lock? at hl
  split at hl
  · cases hl
  · cases hl
    exact ⟨h.of_at?_eq (fun _ => rfl) (Nat.le_refl _), fun _ => .rfl, fun _ _ => rfl,
      fun _ _ _ _ => rfl⟩

end NamespaceCatalog.Disk
