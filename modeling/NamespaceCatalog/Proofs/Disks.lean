import NamespaceCatalog.Storage.Disk

/-!
# What stays on a disk

A disk extends another one if all directories of that one are directories of it.  A path then leads
where it led before (`Extends.locate`), and a directory that was made need not be made again
(`createDirs_of_stands`).  Whatever is done to the file at one place extends the disk, and leaves
the other places as they are (`DiffersAt`).
-/

namespace NamespaceCatalog.Disk

variable {d d' e : Disk} {path : Path} {paths : List Path} {place other : Place} {id : FileId}

/-! ## Places -/

theorem ne_nil_of_at? (h : d.at? place ≠ some .directory) : place ≠ [] := by
  rintro rfl
  exact h rfl

theorem at?_insert (d : Disk) (hp : place ≠ []) (node : Node) (other : Place) :
    at? { d with nodes := d.nodes.insert place node } other =
      if other = place then some node else d.at? other := by
  unfold at?
  by_cases h : other = place
  · subst h
    simp [hp]
  · have hc : compare place other ≠ .eq := by simpa using fun e => h e.symm
    simp only [if_neg h, Std.ExtTreeMap.getElem?_insert, if_neg hc]

theorem at?_erase (d : Disk) (hp : place ≠ []) (other : Place) :
    at? { d with nodes := d.nodes.erase place } other =
      if other = place then none else d.at? other := by
  unfold at?
  by_cases h : other = place
  · subst h
    simp [hp]
  · have hc : compare place other ≠ .eq := by simpa using fun e => h e.symm
    simp only [if_neg h, Std.ExtTreeMap.getElem?_erase, if_neg hc]

/-! ## Directories that stay -/

/-- Is every directory of the second disk a directory of the first? -/
def Extends (d' d : Disk) : Prop :=
  ∀ place, d.at? place = some .directory → d'.at? place = some .directory

theorem Extends.refl (d : Disk) : d.Extends d := fun _ h => h

theorem Extends.trans (h : e.Extends d') (h' : d'.Extends d) : e.Extends d :=
  fun place hp => h place (h' place hp)

theorem Extends.walk (h : d'.Extends d) (hw : d.walk place path = .ok other) :
    d'.walk place path = .ok other := by
  induction path generalizing place with
  | nil => exact hw
  | cons part parts ih =>
    unfold Disk.walk at hw ⊢
    cases hp : d.at? place with
    | none => simp [hp] at hw
    | some node =>
      cases node with
      | file id => simp [hp] at hw
      | directory =>
        simp only [hp, h place hp] at hw ⊢
        cases hs : step place part with
        | error fault => simp [hs] at hw
        | ok next =>
          simp only [hs] at hw
          exact ih hw

/-- A path that led to a place still does. -/
theorem Extends.locate (h : d'.Extends d) (hl : d.locate path = .ok place) :
    d'.locate path = .ok place := by
  unfold Disk.locate at hl ⊢
  cases hc : checkPath path with
  | error fault => simp [hc] at hl
  | ok _ =>
    simp only [hc] at hl
    exact h.walk hl

/-- A path that ends with a name leads to a place in the directory before it. -/
theorem exists_walk_of_locate {name : String} (hl : d.locate (path ++ [name]) = .ok place)
    (hname : name ≠ "" ∧ name ≠ "." ∧ name ≠ "..") :
    ∃ dir, d.walk [] path = .ok dir ∧ d.at? dir = some .directory ∧ place = dir ++ [name] := by
  unfold locate at hl
  cases hc : checkPath (path ++ [name]) with
  | error fault => simp [hc] at hl
  | ok _ =>
    simp only [hc, walk_append] at hl
    cases hw : d.walk [] path with
    | error fault => simp [hw] at hl
    | ok dir =>
      simp only [hw, walk, step, hname, or_self, if_false] at hl
      split at hl
      · cases hl
      · cases hl
      · next hdir =>
        refine ⟨dir, rfl, hdir, ?_⟩
        split at hl
        · cases hl
        · next hs =>
          cases hl
          split at hs
          · cases hs
          · exact (Except.ok.inj hs).symm

/-! ## Making directories -/

/-- Does the path lead to a directory? -/
def Reaches (d : Disk) (path : Path) : Prop :=
  ∃ place, d.locate (trimmed path) = .ok place ∧ d.at? place = some .directory

theorem Extends.reaches (h : d'.Extends d) (hr : d.Reaches path) : d'.Reaches path := by
  obtain ⟨place, hl, hp⟩ := hr
  exact ⟨place, h.locate hl, h place hp⟩

theorem createDir_of_reaches (h : d.Reaches path) : d.createDir path = .ok d := by
  obtain ⟨place, hl, hp⟩ := h
  simp only [createDir, hl, hp]

theorem createDir_ok (h : d.createDir path = .ok d') : d'.Extends d ∧ d'.Reaches path := by
  unfold createDir at h
  cases hl : d.locate (trimmed path) with
  | error fault => simp [hl] at h
  | ok place =>
    simp only [hl] at h
    cases hp : d.at? place with
    | some node =>
      cases node with
      | directory =>
        simp only [hp, Except.ok.injEq] at h
        exact h ▸ ⟨.refl d, place, hl, hp⟩
      | file id => simp [hp] at h
    | none =>
      simp only [hp, Except.ok.injEq] at h
      have hne : place ≠ [] := ne_nil_of_at? (d := d) (by simp [hp])
      have hext : d'.Extends d := by
        intro other ho
        rw [← h, at?_insert d hne]
        split
        · rfl
        · exact ho
      refine ⟨hext, place, hext.locate hl, ?_⟩
      rw [← h, at?_insert d hne, if_pos rfl]

theorem createEach_of_reaches (h : ∀ path ∈ paths, d.Reaches path) :
    d.createEach paths = (.ok (), d) := by
  induction paths with
  | nil => rfl
  | cons path paths ih =>
    rw [createEach, createDir_of_reaches (h path List.mem_cons_self)]
    exact ih fun path hp => h path (List.mem_cons_of_mem _ hp)

theorem createEach_ok (h : d.createEach paths = (.ok (), d')) :
    d'.Extends d ∧ ∀ path ∈ paths, d'.Reaches path := by
  induction paths generalizing d with
  | nil =>
    obtain rfl : d = d' := by simpa [createEach] using h
    exact ⟨.refl d, fun _ hp => absurd hp List.not_mem_nil⟩
  | cons path paths ih =>
    unfold createEach at h
    cases hd : d.createDir path with
    | error fault => simp [hd] at h
    | ok next =>
      simp only [hd] at h
      obtain ⟨hext, hreach⟩ := createDir_ok hd
      obtain ⟨hext', hreach'⟩ := ih h
      refine ⟨hext'.trans hext, fun p hp => ?_⟩
      rcases List.mem_cons.1 hp with rfl | hp
      · exact hext'.reaches hreach
      · exact hreach' p hp

/-- Are the directory at the path and those it lies in there? -/
structure Stands (d : Disk) (path : Path) : Prop where
  check : checkPath path = .ok ()
  reaches : ∀ part ∈ ancestors path ++ [path], d.Reaches part

theorem Extends.stands (h : d'.Extends d) (hs : d.Stands path) : d'.Stands path :=
  ⟨hs.check, fun part hp => h.reaches (hs.reaches part hp)⟩

theorem createDirs_of_stands (h : d.Stands path) : d.createDirs path = (.ok (), d) := by
  rw [createDirs, h.check]
  exact createEach_of_reaches h.reaches

theorem createDirs_ok (h : d.createDirs path = (.ok (), d')) : d'.Extends d ∧ d'.Stands path := by
  unfold createDirs at h
  cases hc : checkPath path with
  | error fault => simp [hc] at h
  | ok _ =>
    simp only [hc] at h
    obtain ⟨hext, hreach⟩ := createEach_ok h
    exact ⟨hext, hc, hreach⟩

/-! ## Files -/

/-- Does the first disk differ from the second at most in the file at a place? -/
structure DiffersAt (d' d : Disk) (place : Place) : Prop where
  elsewhere : ∀ other, other ≠ place → d'.at? other = d.at? other
  noDirectory : d.at? place ≠ some .directory

theorem DiffersAt.extends (h : d'.DiffersAt d place) : d'.Extends d := by
  intro other ho
  rw [h.elsewhere other]
  · exact ho
  · rintro rfl
    exact h.noDirectory ho

theorem DiffersAt.refl (h : d.at? place ≠ some .directory) : d.DiffersAt d place :=
  ⟨fun _ _ => rfl, h⟩

theorem DiffersAt.trans (h : e.DiffersAt d' place) (h' : d'.DiffersAt d place) :
    e.DiffersAt d place :=
  ⟨fun other ho => (h.elsewhere other ho).trans (h'.elsewhere other ho), h'.noDirectory⟩

/-- Can there be a file at the path? -/
def TakesFile (d : Disk) (path : Path) : Prop :=
  ∃ place, d.locate path = .ok place ∧ d.at? place ≠ some .directory

/-- A file that is there is opened. -/
theorem openFile_of_file (hl : d.locate path = .ok place) (hp : d.at? place = some (.file id)) :
    d.openFile path = .ok (id, d) := by
  simp only [openFile, hl, hp]

/-- Where nothing is, an empty file is made. -/
theorem exists_openFile (hl : d.locate path = .ok place) (hp : d.at? place = none) :
    ∃ id d', d.openFile path = .ok (id, d') ∧ d'.DiffersAt d place ∧
      d'.at? place = some (.file id) ∧ d'.read id = [] := by
  have hne : place ≠ [] := ne_nil_of_at? (d := d) (by simp [hp])
  have hat := at?_insert (d.newFile []).2 hne (.file (d.newFile []).1)
  have hopen : d.openFile path = .ok ((d.newFile []).1,
      { (d.newFile []).2 with
        nodes := (d.newFile []).2.nodes.insert place (.file (d.newFile []).1) }) := by
    simp only [openFile, hl, hp]
  refine ⟨_, _, hopen, ⟨fun other ho => ?_, by simp [hp]⟩, ?_, d.read_newFile []⟩
  · rw [hat, if_neg ho]
    rfl
  · rw [hat, if_pos rfl]

theorem exists_openFile_of_not_directory (hl : d.locate path = .ok place)
    (hp : d.at? place ≠ some .directory) : ∃ id d', d.openFile path = .ok (id, d') := by
  cases hp' : d.at? place with
  | none =>
    obtain ⟨id, d', ho, -⟩ := exists_openFile hl hp'
    exact ⟨id, d', ho⟩
  | some node =>
    cases node with
    | directory => exact absurd hp' hp
    | file id => exact ⟨id, d, openFile_of_file hl hp'⟩

theorem openFile_ok (h : d.openFile path = .ok (id, d')) :
    ∃ place, d.locate path = .ok place ∧ d'.DiffersAt d place ∧ d'.at? place = some (.file id) := by
  cases hl : d.locate path with
  | error fault => simp [openFile, hl] at h
  | ok place =>
    cases hp : d.at? place with
    | some node =>
      cases node with
      | directory => simp [openFile, hl, hp] at h
      | file file =>
        rw [openFile_of_file hl hp, Except.ok.injEq, Prod.mk.injEq] at h
        obtain ⟨rfl, rfl⟩ := h
        exact ⟨place, rfl, .refl (by simp [hp]), hp⟩
    | none =>
      obtain ⟨file, next, ho, hd, hfile, -⟩ := exists_openFile hl hp
      rw [ho, Except.ok.injEq, Prod.mk.injEq] at h
      obtain ⟨rfl, rfl⟩ := h
      exact ⟨place, rfl, hd, hfile⟩

/-- What is removed was the file at one place. -/
theorem exists_remove (hl : d.locate path = .ok place) (hp : d.at? place = some (.file id)) :
    ∃ d', d.remove path = .ok d' ∧ d'.DiffersAt d place ∧ d'.at? place = none := by
  have hne : place ≠ [] := ne_nil_of_at? (d := d) (by simp [hp])
  have hremove : d.remove path = .ok { d with nodes := d.nodes.erase place } := by
    simp only [remove, hl, hp]
  refine ⟨_, hremove, ⟨fun other ho => ?_, by simp [hp]⟩, ?_⟩
  · rw [at?_erase d hne, if_neg ho]
  · rw [at?_erase d hne, if_pos rfl]

/-- A file that is renamed leaves one place and takes another. -/
theorem exists_rename {target : Path} {next : Place} (hl : d.locate path = .ok place)
    (hp : d.at? place = some (.file id)) (hl' : d.locate target = .ok next)
    (hn : d.at? next ≠ some .directory) (hne : place ≠ next) :
    ∃ d', d.rename path target = .ok d' ∧ d'.contents = d.contents ∧
      (∀ other, other ≠ place → other ≠ next → d'.at? other = d.at? other) ∧
      d'.at? place = none ∧ d'.at? next = some (.file id) := by
  have hplace : place ≠ [] := ne_nil_of_at? (d := d) (by simp [hp])
  have hat := at?_insert { d with nodes := d.nodes.erase place } (ne_nil_of_at? hn) (.file id)
  refine ⟨{ d with nodes := (d.nodes.erase place).insert next (.file id) }, ?_, rfl, ?_, ?_, ?_⟩
  · cases hn' : d.at? next with
    | none => simp only [rename, hl, hl', hp, hn']
    | some node =>
      cases node with
      | directory => exact absurd hn' hn
      | file file => simp only [rename, hl, hl', hp, hn']
  · intro other ho ho'
    rw [hat, if_neg ho', at?_erase d hplace, if_neg ho]
  · rw [hat, if_neg hne, at?_erase d hplace, if_pos rfl]
  · rw [hat, if_pos rfl]

end NamespaceCatalog.Disk
