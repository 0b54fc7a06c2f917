import NamespaceCatalog.Proofs.Horizons

/-!
# Snapshots

Every step of a scene keeps the invariant (`inv_of_steps`).  So a running transaction reads the rows
that the commits before its number left, with its own writes laid over them (`reads_snapshot`).
-/

namespace NamespaceCatalog

variable {a : Actor} {c d : Chronicle} {tables : TableId → Table} {i : Nat}

/-! ## What a change keeps -/

theorem Actor.own_eq_nil {t : TableId} (h : (a.overlays t).installed = false) (key : Bytes) :
    a.own t key = [] := by
  rw [own, h]
  rfl

theorem Actor.own_of_not_written {t : TableId} {key : Bytes}
    (h : (a.overlays t).buffer[key]? = none) : a.own t key = [] := by
  unfold own
  rw [h]
  split <;> rfl

theorem Actor.own_put (a : Actor) (t : TableId) (x : Overlay) (key : Bytes) :
    (a.put t x).own t key =
      if x.installed then (x.buffer[key]?.map fun v => ⟨a.tx.id, v⟩).toList else [] := by
  simp only [own, put, Function.update_self]

theorem Actor.own_of_mem {v : Version} {t : TableId} {key : Bytes} (h : v ∈ a.own t key) :
    a.own t key = [v] ∧ v.writer = a.tx.id ∧ (a.overlays t).installed = true ∧
      key ∈ (a.overlays t).buffer := by
  unfold own at h ⊢
  split at h
  · next hi =>
    cases hb : (a.overlays t).buffer[key]? with
    | none => simp [hb] at h
    | some w =>
      obtain rfl : v = ⟨a.tx.id, w⟩ := by simpa [hb] using h
      exact ⟨by simp [hi], rfl, hi, by simp [Std.ExtTreeMap.mem_iff_isSome_getElem?, hb]⟩
  · cases h

theorem Actor.Fits.views (h : a.Fits c tables i) (hlt : i < c.coordinator.next) :
    a.tx.Views c := by
  obtain rfl := h.id
  exact ⟨hlt, h.readPointer, h.sees⟩

theorem Actor.Fits.advance (h : a.Fits c tables i) (hc : c.Inv)
    (hi : i ∈ c.coordinator.inProgress) (hcd : c.Advances d) (hheld : d.held i = c.held i) :
    a.Fits d tables i where
  id := h.id
  readPointer := h.readPointer
  attached := h.attached
  working := h.working
  held t ht key hk := hheld ▸ h.held t ht key hk
  own := h.own
  sees w hw hne := by
    have hviews := (h.views (hc.running i hi).2).advance hc hcd
    rw [hviews.sees w hw (h.id.symm ▸ hne), h.id]

theorem Actor.Fits.withTable (h : a.Fits c tables i) {t : TableId} {table : Table}
    (hname : table.name = (tables t).name)
    (hown : ∀ key, ∃ others, table.versions key = a.own t key ++ others ∧
      ∀ v ∈ others, v.writer ≠ i) : a.Fits c (Function.update tables t table) i where
  id := h.id
  readPointer := h.readPointer
  attached := h.attached
  working := h.working
  held u hu key hk := by
    have := h.held u hu key hk
    by_cases e : u = t
    · subst e
      rwa [Function.update_self, hname]
    · rwa [Function.update_of_ne e]
  own u key := by
    by_cases e : u = t
    · subst e
      rw [Function.update_self]
      exact hown key
    · rw [Function.update_of_ne e]
      exact h.own u key
  sees := h.sees

/-- An overlay that serves a transaction serves that of its actor. -/
theorem Actor.Fits.of_overlay (h : a.Fits c tables i) {t : TableId} {tx : Transaction}
    (hx : (a.overlays t).tx = some tx) : tx = a.tx ∧ t ∈ a.started := by
  rcases h.attached t with ⟨htx, hstarted⟩ | ⟨htx, -⟩
  · exact ⟨Option.some.inj (hx.symm.trans htx), hstarted⟩
  · rw [hx] at htx
    cases htx

theorem Actor.Fits.id_of_overlay (h : a.Fits c tables i) {t : TableId} {tx : Transaction}
    (hx : (a.overlays t).tx = some tx) : tx.id = i := by
  rw [(h.of_overlay hx).1]
  exact h.id

theorem Actor.Fits.cons_started (h : a.Fits c tables i) (t : TableId) :
    { a with started := t :: a.started }.Fits c tables i :=
  { h with attached := fun u =>
      (h.attached u).imp_left fun ⟨ht, hm⟩ => ⟨ht, List.mem_cons_of_mem t hm⟩ }

theorem Actor.Fits.fail (h : a.Fits c tables i) :
    { a with progress := .failing }.Fits c tables i :=
  { h with
    working := nofun
    held := fun t ht => h.held t (ht.elim nofun .inr) }

/-- An actor may go on with another overlay and another state of its table. -/
theorem Actor.Fits.put (h : a.Fits c tables i) {t : TableId} {x : Overlay} {table : Table}
    (hattached : x.tx = some a.tx ∧ t ∈ a.started ∨
      x.tx = none ∧ x.buffer = ∅ ∧ x.installed = false)
    (hworking : a.progress = .working → x.installed = false)
    (hname : table.name = (tables t).name)
    (hheld : a.progress = .reserved ∨ x.installed = true →
      ∀ key ∈ x.buffer, Overlay.rowId (tables t).name key ∈ c.held i)
    (hown : ∀ key, ∃ others, table.versions key = (a.put t x).own t key ++ others ∧
      ∀ v ∈ others, v.writer ≠ i) :
    (a.put t x).Fits c (Function.update tables t table) i where
  id := h.id
  readPointer := h.readPointer
  attached u := by
    by_cases e : u = t
    · subst e
      simpa only [Actor.put, Function.update_self] using hattached
    · simpa only [Actor.put, Function.update_of_ne e] using h.attached u
  working hp u := by
    by_cases e : u = t
    · subst e
      simpa only [Actor.put, Function.update_self] using hworking hp
    · simpa only [Actor.put, Function.update_of_ne e] using h.working hp u
  held u hu key hk := by
    by_cases e : u = t
    · subst e
      simp only [Actor.put, Function.update_self] at hu hk ⊢
      exact hname ▸ hheld hu key hk
    · simp only [Actor.put, Function.update_of_ne e] at hu hk ⊢
      exact h.held u hu key hk
  own u key := by
    by_cases e : u = t
    · subst e
      rw [Function.update_self]
      exact hown key
    · simpa only [Actor.own, Actor.put, Function.update_of_ne e] using h.own u key
  sees := h.sees

/-- Nothing is installed while the body runs. -/
theorem Actor.Fits.put_of_working (h : a.Fits c tables i) {t : TableId} {x : Overlay}
    (hp : a.progress = .working) (hx : x.installed = false)
    (hattached : x.tx = some a.tx ∧ t ∈ a.started ∨ x.tx = none ∧ x.buffer = ∅) :
    (a.put t x).Fits c tables i := by
  have hput : (a.put t x).Fits c (Function.update tables t (tables t)) i :=
    h.put (hattached.imp_right fun ⟨htx, hb⟩ => ⟨htx, hb, hx⟩) (fun _ => hx) rfl
      (fun e => absurd e (by simp [hp, hx])) fun key => ?_
  · rwa [Function.update_eq_self] at hput
  · have hown := h.own t key
    rw [Actor.own_eq_nil (h.working hp t)] at hown
    rwa [Actor.own_eq_nil (by simpa only [Actor.put, Function.update_self] using hx)]

theorem Horizon.Past.settles {h : Horizon} (hp : h.Past c) {w : Nat} (hw : h.isSettled w) :
    c.Settles w := hp.settled w hw

theorem Horizon.Past.advance {h : Horizon} (hp : h.Past c) (hc : c.Inv) (hcd : c.Advances d) :
    h.Past d where
  settled _ hw := (hp.settles hw).advance hc hcd
  dead w hw := hcd.over (hp.dead w hw)

namespace Scene

variable {s : Scene}

/-- Later commits do not change the rows before a number that was given out. -/
theorem rowsBefore_of_advances {d : Scene} (h : s.chronicle.Advances d.chronicle) {n : Nat}
    (hn : n ≤ s.coordinator.next) (hbase : d.base = s.base)
    (hwritten : ∀ k ∈ s.chronicle.commits, d.written k.id = s.written k.id) :
    d.rowsBefore n = s.rowsBefore n := by
  obtain ⟨later, e, hlater⟩ := h.commits
  have hnil : later.filter (·.pointer < n) = [] := by
    rw [List.filter_eq_nil_iff]
    intro k hk hlt
    exact Nat.not_lt.2 (Nat.le_trans hn (hlater k hk).2) (by simpa using hlt)
  funext t
  have hsame : ∀ l : List Commit, (∀ k ∈ l, k ∈ s.chronicle.commits) →
      (l.flatMap fun k => d.written k.id t) = l.flatMap fun k => s.written k.id t := by
    intro l hl
    rw [List.flatMap_def, List.flatMap_def]
    exact congrArg List.flatten (List.map_congr_left fun k hk => by rw [hwritten k (hl k hk)])
  rw [rowsBefore, rowsBefore, e, List.filter_append, hnil, List.append_nil, hbase,
    hsame _ fun k hk => (List.mem_filter.1 hk).1]

namespace Inv

theorem lawful (h : Inv s) : s.chronicle.Lawful := ⟨h.chronicle, h.invalid⟩

/-! ## Steps that ask the coordinator nothing -/

/-- Actors may go on, and a table may change, if all read the same as before. -/
theorem change (h : Inv s) {actors : TxId → Option Actor} {t : TableId} {table : Table}
    (hrun : ∀ i, (∃ a, actors i = some a ∧ a.progress ≠ .over) ↔
      ∃ a, s.actors i = some a ∧ a.progress ≠ .over)
    (hfits : ∀ i a, actors i = some a → a.progress ≠ .over →
      a.Fits s.chronicle (Function.update s.tables t table) i)
    (hname : table.name = (s.tables t).name)
    (hwriters : ∀ key, ∀ v ∈ table.versions key,
      v ∈ (s.tables t).versions key ∨ v.writer ∈ s.coordinator.inProgress)
    (hvalues : ∀ n : Nat, n ∈ s.coordinator.inProgress ∨ n = s.coordinator.next → ∀ key,
      Version.newest (s.chronicle.isBefore n) (table.versions key) =
        Version.newest (s.chronicle.isBefore n) ((s.tables t).versions key)) :
    Inv { s.putTable t table with actors } where
  chronicle := h.chronicle
  invalid := h.invalid
  running i := (h.running i).trans (hrun i).symm
  fits := hfits
  writers u key v hv := by
    by_cases e : u = t
    · subst e
      simp only [putTable, Function.update_self] at hv
      exact (hwriters key v hv).elim (h.writers u key v) fun hi => .inr (.inr (.inl hi))
    · simp only [putTable, Function.update_of_ne e] at hv
      exact h.writers u key v hv
  horizons := h.horizons
  values n hn u key := by
    refine Eq.trans ?_ (h.values n hn u key)
    by_cases e : u = t
    · subst e
      simp only [putTable, Function.update_self]
      exact hvalues n hn key
    · simp only [putTable, Function.update_of_ne e]
  written k hk u w hw := by
    have := h.written k hk u w hw
    by_cases e : u = t
    · subst e
      simpa only [putTable, Function.update_self, hname] using this
    · simpa only [putTable, Function.update_of_ne e] using this

theorem running_put {i : TxId} {a b : Actor} (ha : s.actors i = some a)
    (hab : a.progress = .over ↔ b.progress = .over) (j : TxId) :
    (∃ o, (s.put i b).actors j = some o ∧ o.progress ≠ .over) ↔
      ∃ o, s.actors j = some o ∧ o.progress ≠ .over := by
  by_cases e : j = i
  · subst e
    simp [actors_put_self, ha, hab]
  · rw [actors_put_of_ne _ e]

/-- One actor may go on, and change a table, if the versions of the others stay. -/
theorem act (h : Inv s) {i : TxId} {a b : Actor} {t : TableId} {table : Table}
    (ha : s.actors i = some a) (hp : a.progress ≠ .over) (hq : b.progress ≠ .over)
    (hfits : b.Fits s.chronicle (Function.update s.tables t table) i)
    (hothers : ∀ j o, s.actors j = some o → o.progress ≠ .over → j ≠ i → ∀ key,
      ∃ others, table.versions key = o.own t key ++ others ∧ ∀ v ∈ others, v.writer ≠ j)
    (hname : table.name = (s.tables t).name)
    (hwriters : ∀ key, ∀ v ∈ table.versions key, v ∈ (s.tables t).versions key ∨ v.writer = i)
    (hvalues : ∀ n : Nat, n ∈ s.coordinator.inProgress ∨ n = s.coordinator.next → ∀ key,
      Version.newest (s.chronicle.isBefore n) (table.versions key) =
        Version.newest (s.chronicle.isBefore n) ((s.tables t).versions key)) :
    Inv ((s.putTable t table).put i b) := by
  have hi : i ∈ s.coordinator.inProgress := (h.running i).2 ⟨a, ha, hp⟩
  refine h.change (running_put ha (iff_of_false hp hq)) ?_ hname ?_ hvalues
  · intro j o ho hop
    rcases actors_put_cases ho with ⟨rfl, rfl⟩ | ⟨e, ho⟩
    · exact hfits
    · exact (h.fits j o ho hop).withTable hname (hothers j o ho hop e)
  · exact fun key v hv => (hwriters key v hv).imp_right fun e => by rwa [e]

/-- One actor may go on if no versions change. -/
theorem act_of_versions_eq (h : Inv s) {i : TxId} {a b : Actor} {t : TableId} {table : Table}
    (ha : s.actors i = some a) (hp : a.progress ≠ .over) (hq : b.progress ≠ .over)
    (hfits : b.Fits s.chronicle s.tables i) (hname : table.name = (s.tables t).name)
    (hversions : table.versions = (s.tables t).versions) :
    Inv ((s.putTable t table).put i b) := by
  refine h.act ha hp hq (hfits.withTable hname fun key => ?_) ?_ hname ?_ ?_
  · rw [hversions]
    exact hfits.own t key
  · intro j o ho hop _ key
    rw [hversions]
    exact (h.fits j o ho hop).own t key
  · intro key v hv
    rw [hversions] at hv
    exact .inl hv
  · intro n _ key
    rw [hversions]

theorem put (h : Inv s) {i : TxId} {a b : Actor} (ha : s.actors i = some a)
    (hp : a.progress ≠ .over) (hq : b.progress ≠ .over)
    (hfits : b.Fits s.chronicle s.tables i) : Inv (s.put i b) := by
  have : Inv ((s.putTable 0 (s.tables 0)).put i b) :=
    h.act_of_versions_eq ha hp hq hfits rfl rfl
  rwa [putTable, Function.update_eq_self] at this

/-- Who is over does not matter. -/
theorem put_over (h : Inv s) {i : TxId} {a b : Actor} (ha : s.actors i = some a)
    (hp : a.progress = .over) (hq : b.progress = .over) : Inv (s.put i b) where
  chronicle := h.chronicle
  invalid := h.invalid
  running j := (h.running j).trans (running_put ha (iff_of_true hp hq) j).symm
  fits j o ho hop := by
    rcases actors_put_cases ho with ⟨rfl, rfl⟩ | ⟨-, ho⟩
    · exact absurd hq hop
    · exact h.fits j o ho hop
  writers := h.writers
  horizons := h.horizons
  values := h.values
  written := h.written

theorem start (h : Inv s) {i : TxId} {a : Actor} {t : TableId} {x : Overlay}
    (ha : s.actors i = some a) (hp : a.progress = .working)
    (hx : (a.overlays t).start (s.tables t) a.tx = .ok x) :
    Inv (s.put i { a.put t x with started := t :: a.started }) := by
  have hp' : a.progress ≠ .over := by simp [hp]
  have f := (h.fits i a ha hp').cons_started t
  obtain ⟨-, rfl⟩ := Overlay.of_start_ok hx
  exact h.put ha hp' hp' (f.put_of_working hp rfl (.inl ⟨rfl, List.mem_cons_self⟩))

theorem perform (h : Inv s) {i : TxId} {a : Actor} {t : TableId} {op : TableOperation}
    {answer : TableAnswer} {x : Overlay}
    (ha : s.actors i = some a) (hp : a.progress = .working)
    (hx : (a.overlays t).perform op (s.tables t) = .ok (answer, x)) :
    Inv (s.put i (a.put t x)) := by
  have hp' : a.progress ≠ .over := by simp [hp]
  have f := h.fits i a ha hp'
  obtain ⟨hxe, hnone⟩ := Overlay.of_perform_ok hx
  refine h.put ha hp' hp' (f.put_of_working hp ?_ ?_)
  · rw [hxe]
    exact f.working hp t
  · rcases f.attached t with ⟨htx, hm⟩ | ⟨htx, hb, -⟩
    · exact .inl ⟨by rw [hxe]; exact htx, hm⟩
    · rw [hnone htx]
      exact .inr ⟨htx, hb⟩

theorem fail (h : Inv s) {i : TxId} {a : Actor} (ha : s.actors i = some a)
    (hp : a.progress ≠ .over) : Inv (s.put i { a with progress := .failing }) :=
  h.put ha hp nofun (h.fits i a ha hp).fail

theorem failInstall (h : Inv s) {i : TxId} {a : Actor} {t : TableId} {e : Error} {x : Overlay}
    {table : Table} (ha : s.actors i = some a) (hp : a.progress = .reserved)
    (hx : (a.overlays t).commit (s.tables t) = (.error e, x, table)) :
    Inv ((s.putTable t table).put i { a.put t x with progress := .failing }) := by
  have hp' : a.progress ≠ .over := by simp [hp]
  obtain ⟨rfl, log, rfl⟩ := Overlay.of_commit_error hx
  have e : a.put t (a.overlays t) = a := by rw [Actor.put, Function.update_eq_self]
  rw [e]
  exact h.act_of_versions_eq ha hp' nofun (h.fits i a ha hp').fail rfl rfl

/-- No two running transactions have a row in common that each reserved or installed. -/
theorem buffers_apart (h : Inv s) {i j : TxId} {a o : Actor} (ha : s.actors i = some a)
    (ho : s.actors j = some o) (hp : a.progress ≠ .over) (hq : o.progress ≠ .over) (hne : j ≠ i)
    {t : TableId} {key : Bytes}
    (hat : a.progress = .reserved ∨ (a.overlays t).installed = true)
    (hot : o.progress = .reserved ∨ (o.overlays t).installed = true)
    (hak : key ∈ (a.overlays t).buffer) : key ∉ (o.overlays t).buffer := by
  intro hok
  refine h.chronicle.held_apart i ((h.running i).2 ⟨a, ha, hp⟩) j ((h.running j).2 ⟨o, ho, hq⟩)
    (Ne.symm hne) ⟨Overlay.rowId (s.tables t).name key, ?_, ?_⟩
  · exact (h.fits i a ha hp).held t hat key hak
  · exact (h.fits j o ho hq).held t hot key hok

theorem install (h : Inv s) {i : TxId} {a : Actor} {t : TableId} {x : Overlay} {table : Table}
    (ha : s.actors i = some a) (hp : a.progress = .reserved)
    (hn : (a.overlays t).installed = false)
    (hx : (a.overlays t).commit (s.tables t) = (.ok (), x, table)) :
    Inv ((s.putTable t table).put i (a.put t x)) := by
  have hp' : a.progress ≠ .over := by simp [hp]
  have f := h.fits i a ha hp'
  obtain ⟨tx, logged, log, htx, rfl, rfl⟩ := Overlay.of_commit_ok hx
  obtain ⟨rfl, hstarted⟩ := f.of_overlay htx
  -- a new version is in front, if there is one
  have hversions : ∀ key, Table.versions
      { (s.tables t).addVersions a.tx.id (a.overlays t).buffer.toList with log } key =
        ((a.overlays t).buffer[key]?.map fun v => ⟨a.tx.id, v⟩).toList ++
          (s.tables t).versions key :=
    Table.versions_addVersions_toList (s.tables t) a.tx.id (a.overlays t).buffer
  have hname : ((s.tables t).addVersions a.tx.id (a.overlays t).buffer.toList).name =
      (s.tables t).name := Table.name_addVersions ..
  generalize hb : (a.overlays t).buffer = buffer at *
  have hnew : ∀ key, ∀ v ∈ (buffer[key]?.map fun v => (⟨a.tx.id, v⟩ : Version)).toList,
      v.writer = i ∧ key ∈ buffer := by
    intro key v hv
    cases hk : buffer[key]? with
    | none => simp [hk] at hv
    | some w =>
      obtain rfl : v = ⟨a.tx.id, w⟩ := by simpa [hk] using hv
      exact ⟨f.id, by simp [Std.ExtTreeMap.mem_iff_isSome_getElem?, hk]⟩
  have hi : i ∈ s.coordinator.inProgress := (h.running i).2 ⟨a, ha, hp'⟩
  refine h.act ha hp' hp' (f.put (.inl ⟨htx, hstarted⟩) ?_ hname ?_ fun key => ?_) ?_ hname ?_ ?_
  · exact fun e => absurd (hp.symm.trans e) nofun
  · intro _ key hk
    rw [← hb] at hk
    exact f.held t (.inl hp) key hk
  · obtain ⟨others, hothers, hne⟩ := f.own t key
    rw [Actor.own_eq_nil hn, List.nil_append] at hothers
    refine ⟨others, ?_, hne⟩
    rw [hversions, hothers, Actor.own_put]
    cases he : buffer.isEmpty with
    | true => simp [Std.ExtTreeMap.isEmpty_iff.1 he]
    | false => rfl
  · intro j o ho hop hne key
    obtain ⟨others, hothers, hwriter⟩ := (h.fits j o ho hop).own t key
    cases ho : o.own t key with
    | nil =>
      refine ⟨_, hversions key, fun v hv => ?_⟩
      rcases List.mem_append.1 hv with hv | hv
      · exact (hnew key v hv).1 ▸ hne.symm
      · rw [hothers, ho, List.nil_append] at hv
        exact hwriter v hv
    | cons v vs =>
      obtain ⟨-, -, hinstalled, hmem⟩ := Actor.own_of_mem (ho ▸ List.mem_cons_self (a := v))
      have hnot : key ∉ buffer := fun hk =>
        h.buffers_apart ha ‹_› hp' hop hne (.inl hp) (.inr hinstalled) (hb ▸ hk) hmem
      refine ⟨others, ?_, hwriter⟩
      rw [hversions, Std.ExtTreeMap.getElem?_eq_none hnot, ← ho]
      exact hothers
  · intro key v hv
    rw [hversions] at hv
    exact (List.mem_append.1 hv).symm.imp_right fun hv => (hnew key v hv).1
  · intro n _ key
    rw [hversions]
    cases hk : buffer[key]? with
    | none => rfl
    | some w =>
      have := h.chronicle.isBefore_of_running hi n
      rw [← f.id] at this
      simp [Version.newest_cons, this]

theorem rollback (h : Inv s) {i : TxId} {a : Actor} {t : TableId} {x : Overlay} {table : Table}
    (ha : s.actors i = some a) (hp : a.progress = .failing)
    (hx : (a.overlays t).rollback (s.tables t) = (x, table)) :
    Inv ((s.putTable t table).put i (a.put t x)) := by
  have hp' : a.progress ≠ .over := by simp [hp]
  have f := h.fits i a ha hp'
  have hi : i ∈ s.coordinator.inProgress := (h.running i).2 ⟨a, ha, hp'⟩
  -- in both cases nothing of the actor is left, and nothing of the others is gone
  obtain ⟨rfl, hname, hversions⟩ : x = (a.overlays t).release ∧ table.name = (s.tables t).name ∧
      ∀ key, table.versions key = ((s.tables t).versions key).filter (·.writer ≠ i) := by
    cases hn : (a.overlays t).installed with
    | true =>
      obtain ⟨htx, -⟩ := (f.attached t).resolve_right fun ⟨_, _, h⟩ => by simp [hn] at h
      rw [Overlay.rollback_of_installed htx hn, Prod.mk.injEq, f.id] at hx
      obtain ⟨rfl, rfl⟩ := hx
      exact ⟨rfl, Table.name_revert .., Table.versions_revert _ _ _⟩
    | false =>
      rw [Overlay.rollback_of_not_installed hn, Prod.mk.injEq] at hx
      obtain ⟨rfl, rfl⟩ := hx
      refine ⟨rfl, rfl, fun key => ?_⟩
      obtain ⟨others, hothers, hne⟩ := f.own t key
      rw [hothers, Actor.own_eq_nil hn, List.nil_append, List.filter_eq_self.2]
      simpa using hne
  refine h.act ha hp' hp' (f.put (.inr ⟨rfl, rfl, rfl⟩) ?_ hname ?_ fun key => ?_) ?_ hname ?_ ?_
  · exact fun _ => rfl
  · exact fun _ key hk => absurd hk Std.ExtTreeMap.not_mem_empty
  · rw [Actor.own_put]
    refine ⟨_, hversions key, fun v hv => ?_⟩
    simpa using (List.mem_filter.1 hv).2
  · intro j o ho hop hne key
    obtain ⟨others, hothers, hwriter⟩ := (h.fits j o ho hop).own t key
    refine ⟨others.filter (·.writer ≠ i), ?_, fun v hv => hwriter v (List.mem_filter.1 hv).1⟩
    rw [hversions, hothers, List.filter_append, List.filter_eq_self.2]
    intro v hv
    have : v.writer ≠ i := by
      rw [(Actor.own_of_mem hv).2.1, (h.fits j o ho hop).id]
      exact hne
    simpa using this
  · intro key v hv
    rw [hversions] at hv
    exact .inl (List.mem_filter.1 hv).1
  · intro n _ key
    rw [hversions]
    refine Version.newest_filter fun v _ hb => ?_
    have : v.writer ≠ i := by
      intro e
      rw [e, h.chronicle.isBefore_of_running hi n] at hb
      cases hb
    simpa using this

/-! ## Horizons -/

theorem takeHorizon (h : Inv s) :
    Inv { s with horizons := s.coordinator.horizon :: s.horizons } where
  chronicle := h.chronicle
  invalid := h.invalid
  running := h.running
  fits := h.fits
  writers := h.writers
  horizons g hg := by
    rcases List.mem_cons.1 hg with rfl | hg
    · exact h.lawful.past_horizon
    · exact h.horizons g hg
  values := h.values
  written := h.written

/-- Whoever may read sees the settled versions, and no dead one. -/
theorem newest_prune (h : Inv s) {g : Horizon} (hg : g ∈ s.horizons) {n : Nat}
    (hn : n ∈ s.coordinator.inProgress ∨ n = s.coordinator.next) (t : TableId) (key : Bytes) :
    Version.newest (s.chronicle.isBefore n) (((s.tables t).prune g).2.versions key) =
      Version.newest (s.chronicle.isBefore n) ((s.tables t).versions key) := by
  rw [Table.versions_prune]
  split
  · refine Version.newest_prune (fun v hv hs => ?_) fun v hv hd => ?_
    · rw [Chronicle.isBefore_iff]
      rcases (h.horizons g hg).settled v.writer hs with e | ⟨hrun, hinvalid, -, hbefore⟩
      · exact .inl e
      · rcases h.writers t key v hv with e | ⟨k, hk, e⟩ | hr | hr
        · exact .inl e
        · refine .inr ⟨k, hk, e, ?_⟩
          rcases hn with hn | rfl
          · exact hbefore k hk e n hn
          · exact (h.chronicle.numbers k hk).2.2
        · exact absurd hr hrun
        · exact absurd hr hinvalid
    · obtain ⟨hpos, -, -, hcommits⟩ := (h.horizons g hg).dead v.writer hd
      rw [Chronicle.isBefore_eq_false hpos hcommits]
      exact nofun
  · rfl

theorem prune (h : Inv s) {g : Horizon} (hg : g ∈ s.horizons) (t : TableId) :
    Inv (s.putTable t ((s.tables t).prune g).2) := by
  have hname : ((s.tables t).prune g).2.name = (s.tables t).name := Table.name_prune ..
  have hsub : ∀ key,
      (((s.tables t).prune g).2.versions key).Sublist ((s.tables t).versions key) := by
    intro key
    rw [Table.versions_prune]
    split
    · exact Version.prune_sublist g _
    · exact List.Sublist.refl _
  refine h.change (fun _ => Iff.rfl) (fun j o ho hop => ?_) hname
    (fun key v hv => .inl ((hsub key).subset hv)) fun n hn key => h.newest_prune hg hn t key
  have f := h.fits j o ho hop
  have hj : j ∈ s.coordinator.inProgress := (h.running j).2 ⟨o, ho, hop⟩
  refine f.withTable hname fun key => ?_
  obtain ⟨others, hothers, hwriter⟩ := f.own t key
  rw [Table.versions_prune]
  split
  · refine ⟨Version.prune g others, ?_, fun v hv =>
      hwriter v ((Version.prune_sublist g others).subset hv)⟩
    rw [hothers]
    cases hown : o.own t key with
    | nil => rfl
    | cons v vs =>
      -- the writer runs, so its version is neither settled nor dead
      obtain ⟨e, hv, -⟩ := Actor.own_of_mem (hown ▸ List.mem_cons_self (a := v))
      obtain rfl : vs = [] := by simpa [hown] using e
      rw [f.id] at hv
      refine Version.prune_cons ?_ ?_
      · rw [Bool.eq_false_iff]
        intro hs
        rcases (h.horizons g hg).settled v.writer hs with e | ⟨hrun, -⟩
        · exact Nat.ne_of_gt (h.chronicle.running j hj).1 (hv.symm.trans e)
        · exact hrun (hv ▸ hj)
      · rw [Bool.eq_false_iff]
        exact fun hd => ((h.horizons g hg).dead v.writer hd).2.2.1 (hv ▸ hj)
  · exact ⟨others, hothers, hwriter⟩

/-! ## Steps that ask the coordinator -/

variable {r : Request} {d : Chronicle}

theorem lawful_serve (h : Inv s) (hr : s.chronicle.Allows r) :
    (s.chronicle.serve r).Lawful ∧ s.chronicle.Advances (s.chronicle.serve r) :=
  ⟨h.lawful.serve hr, Chronicle.advances_serve s.chronicle r hr⟩

/-- Who runs and holds what it held still fits. -/
theorem fits_advance (h : Inv s) (adv : s.chronicle.Advances d) {i : TxId} {a : Actor}
    (ha : s.actors i = some a) (hp : a.progress ≠ .over)
    (hheld : d.held i = s.chronicle.held i) : a.Fits d s.tables i :=
  (h.fits i a ha hp).advance h.chronicle ((h.running i).2 ⟨a, ha, hp⟩) adv hheld

/-- The coordinator may answer a request, if the tables hold no versions of unknown writers after
it, and who begins later reads right. -/
theorem turn (h : Inv s) (hd : d.Lawful ∧ s.chronicle.Advances d)
    {actors : TxId → Option Actor} {written : TxId → TableId → List RowWrite}
    (hrun : ∀ i : Nat, i ∈ d.coordinator.inProgress ↔
      ∃ a, actors i = some a ∧ a.progress ≠ .over)
    (hfits : ∀ i a, actors i = some a → a.progress ≠ .over → a.Fits d s.tables i)
    (hwriters : ∀ t key, ∀ v ∈ (s.tables t).versions key, d.Knows v.writer)
    (hold : ∀ k ∈ s.chronicle.commits, written k.id = s.written k.id)
    (hwritten : ∀ k ∈ d.commits, k ∉ s.chronicle.commits → ∀ t, ∀ w ∈ written k.id t,
      Overlay.rowId (s.tables t).name w.1 ∈ k.changes)
    (hvalues : ∀ n, s.coordinator.next ≤ n → n ≤ d.coordinator.next →
      n ∈ d.coordinator.inProgress ∨ n = d.coordinator.next → ∀ t key,
        Version.newest (d.isBefore n) ((s.tables t).versions key) =
          (rowsBefore { s with chronicle := d, actors, written } n t)[key]?) :
    Inv { s with chronicle := d, actors, written } where
  chronicle := hd.1.inv
  invalid := hd.1.invalid
  running := hrun
  fits := hfits
  writers := hwriters
  horizons g hg := (h.horizons g hg).advance h.chronicle hd.2
  values n hn t key := by
    obtain ⟨hd, adv⟩ := hd
    rcases Nat.le_total s.coordinator.next n with hle | hle
    · refine hvalues n hle ?_ hn t key
      exact hn.elim (fun hn => Nat.le_of_lt (hd.inv.running n hn).2) Nat.le_of_eq
    have hn : n ∈ s.coordinator.inProgress ∨ n = s.coordinator.next := by
      rcases hn with hn | rfl
      · exact (adv.running n hn).imp_right fun hn => Nat.le_antisymm hle hn
      · exact .inr (Nat.le_antisymm hle adv.next_le)
    change Version.newest (d.isBefore n) ((s.tables t).versions key) = _
    rw [adv.isBefore_eq hle, h.values n hn t key]
    exact congrArg (fun rows : TableId → _ => (rows t)[key]?)
      (rowsBefore_of_advances (d := { s with chronicle := d, actors, written }) adv hle rfl hold).symm
  written k hk t w hw := by
    by_cases hm : k ∈ s.chronicle.commits
    · exact h.written k hm t w (hold k hm ▸ hw)
    · exact hwritten k hk hm t w hw

theorem isBefore_of_next_le (h : Inv s) {n : Nat} (hn : s.coordinator.next ≤ n) :
    s.chronicle.isBefore n = s.chronicle.isBefore s.coordinator.next := by
  funext w
  rw [Bool.eq_iff_iff, Chronicle.isBefore_iff, Chronicle.isBefore_iff]
  refine or_congr_right (exists_congr fun k => and_congr_right fun hk => and_congr_right fun _ => ?_)
  have := (h.chronicle.numbers k hk).2.2
  exact iff_of_true (Nat.lt_of_lt_of_le this hn) this

theorem rowsBefore_of_next_le (h : Inv s) {n : Nat} (hn : s.coordinator.next ≤ n) :
    s.rowsBefore n = s.rowsBefore s.coordinator.next := by
  have : ∀ m, s.coordinator.next ≤ m →
      s.chronicle.commits.filter (·.pointer < m) = s.chronicle.commits := by
    intro m hm
    refine List.filter_eq_self.2 fun k hk => ?_
    simpa using Nat.lt_of_lt_of_le (h.chronicle.numbers k hk).2.2 hm
  unfold rowsBefore
  rw [this n hn, this _ (Nat.le_refl _)]

theorem rowsBefore_of_commit (h : Inv s) {d : Scene} {k : Commit} {t : TableId}
    (hcommits : d.chronicle.commits = s.chronicle.commits ++ [k])
    (hpointer : k.pointer = s.coordinator.next) (hbase : d.base = s.base)
    (hold : ∀ k ∈ s.chronicle.commits, d.written k.id = s.written k.id) :
    d.rowsBefore (s.coordinator.next + 1) t =
      (d.written k.id t).foldl Table.applyWrite (s.rowsBefore s.coordinator.next t) := by
  have hlt : ∀ k ∈ s.chronicle.commits, k.pointer < s.coordinator.next := fun k hk =>
    (h.chronicle.numbers k hk).2.2
  have hall : d.chronicle.commits.filter (·.pointer < s.coordinator.next + 1) =
      s.chronicle.commits ++ [k] := by
    rw [hcommits]
    refine List.filter_eq_self.2 fun k' hk' => ?_
    rcases List.mem_append.1 hk' with hk' | hk'
    · simpa using Nat.lt_succ_of_lt (hlt k' hk')
    · simpa [List.mem_singleton.1 hk'] using Nat.lt_succ_of_le (Nat.le_of_eq hpointer)
  have hsame : (s.chronicle.commits.flatMap fun k => d.written k.id t) =
      s.chronicle.commits.flatMap fun k => s.written k.id t := by
    rw [List.flatMap_def, List.flatMap_def]
    exact congrArg List.flatten (List.map_congr_left fun k hk => by rw [hold k hk])
  rw [rowsBefore, hall, List.flatMap_append, List.foldl_append, hsame, hbase, rowsBefore,
    List.filter_eq_self.2 fun k hk => by simpa using hlt k hk]
  simp

/-- The coordinator may answer a request that commits nothing. -/
theorem turn_of_commits_eq (h : Inv s) (hd : d.Lawful ∧ s.chronicle.Advances d)
    {actors : TxId → Option Actor} (hcommits : d.commits = s.chronicle.commits)
    (hrun : ∀ i : Nat, i ∈ d.coordinator.inProgress ↔
      ∃ a, actors i = some a ∧ a.progress ≠ .over)
    (hfits : ∀ i a, actors i = some a → a.progress ≠ .over → a.Fits d s.tables i)
    (hwriters : ∀ t key, ∀ v ∈ (s.tables t).versions key, d.Knows v.writer) :
    Inv { s with chronicle := d, actors } := by
  refine h.turn hd hrun hfits hwriters (fun _ _ => rfl)
    (fun k hk hm => absurd (hcommits ▸ hk) hm) fun n hn _ _ t key => ?_
  have hbefore : d.isBefore n = s.chronicle.isBefore n := by
    funext w
    rw [Chronicle.isBefore, hcommits, Chronicle.isBefore]
  have hrows : rowsBefore { s with chronicle := d, actors } n t = s.rowsBefore n t := by
    unfold rowsBefore
    rw [hcommits]
  rw [hbefore, h.isBefore_of_next_le hn, h.values _ (.inr rfl), ← h.rowsBefore_of_next_le hn]
  exact congrArg (fun rows => rows[key]?) hrows.symm

/-- Who begins sees just what committed before. -/
theorem fits_begin (h : Inv s) :
    (Actor.ofTransaction s.coordinator.begin.1).Fits (s.ask .begin).chronicle s.tables
      s.coordinator.next where
  id := rfl
  readPointer := Nat.sub_lt h.chronicle.next_pos Nat.one_pos
  attached _ := .inr ⟨rfl, rfl, rfl⟩
  working _ _ := rfl
  held _ _ key hk := absurd hk Std.ExtTreeMap.not_mem_empty
  own t key := by
    refine ⟨(s.tables t).versions key, rfl, fun v hv e => ?_⟩
    rcases h.writers t key v hv with e' | ⟨k, hk, e'⟩ | hr | hi
    · have : s.coordinator.next = 0 := e.symm.trans e'
      exact Nat.ne_of_gt h.chronicle.next_pos this
    · have := h.chronicle.numbers k hk
      rw [e', e] at this
      exact Nat.lt_irrefl _ (Nat.lt_trans this.2.1 this.2.2)
    · exact h.chronicle.not_running_of_next_le (Nat.le_of_eq e.symm) hr
    · exact Nat.ne_of_lt (h.invalid _ hi).2.1 e
  sees := (Transaction.Views.of_begin h.lawful).sees

theorem begin (h : Inv s) :
    Inv ((s.ask .begin).put s.coordinator.next (.ofTransaction s.coordinator.begin.1)) := by
  have hbegun : ∀ i : Nat, i ∈ (s.chronicle.serve .begin).coordinator.inProgress ↔
      i = s.coordinator.next ∨ i ∈ s.coordinator.inProgress := fun i => Chronicle.Inv.mem_begin
  have hd := h.lawful_serve (r := .begin) fun _ e => nomatch e
  refine h.turn_of_commits_eq hd rfl ?_ ?_ ?_
  · intro i
    rw [hbegun]
    by_cases e : i = s.coordinator.next
    · subst e
      exact iff_of_true (.inl rfl) ⟨_, Function.update_self .., nofun⟩
    · rw [Function.update_of_ne e]
      exact (or_iff_right e).trans (h.running i)
  · intro i a ha hp
    rcases actors_put_cases ha with ⟨rfl, rfl⟩ | ⟨-, ha⟩
    · exact h.fits_begin
    · exact h.fits_advance hd.2 ha hp rfl
  · exact fun t key v hv => (h.writers t key v hv).serve nofun nofun

/-- One actor may go on while the coordinator changes what it holds. -/
theorem ask_put (h : Inv s) {i : TxId} {a b : Actor}
    (hask : s.chronicle.serve r = d) (hr : ∀ tx, r ≠ .invalidate tx)
    (ha : s.actors i = some a) (hp : a.progress ≠ .over) (hq : b.progress ≠ .over)
    (hrun : d.coordinator.inProgress = s.coordinator.inProgress)
    (hinvalid : d.coordinator.invalid = s.coordinator.invalid)
    (hcommits : d.commits = s.chronicle.commits)
    (hheld : ∀ j, j ≠ i → d.held j = s.chronicle.held j)
    (hfits : b.Fits d s.tables i) : Inv ((s.ask r).put i b) := by
  have hd := hask ▸ h.lawful_serve (r := r) fun tx e => absurd e (hr tx)
  unfold ask
  rw [hask]
  refine h.turn_of_commits_eq hd hcommits ?_ ?_ ?_
  · intro j
    rw [hrun]
    exact (h.running j).trans (running_put ha (iff_of_false hp hq) j).symm
  · intro j o ho hop
    rcases actors_put_cases ho with ⟨rfl, rfl⟩ | ⟨e, ho⟩
    · exact hfits
    · exact h.fits_advance hd.2 ho hop (hheld j e)
  · unfold Chronicle.Knows
    rw [hrun, hinvalid, hcommits]
    exact h.writers

theorem reserve (h : Inv s) {i : TxId} {a : Actor} (ha : s.actors i = some a)
    (hp : a.progress = .working)
    (hr : (s.coordinator.reserve a.tx (a.changes s.tables)).1 = .ok ()) :
    Inv ((s.ask (.reserve a.tx (a.changes s.tables))).put i { a with progress := .reserved }) := by
  have hp' : a.progress ≠ .over := by simp [hp]
  have f := h.fits i a ha hp'
  refine h.ask_put (Chronicle.serve_reserve_of_ok hr) nofun ha hp' nofun rfl rfl rfl ?_ ?_
  · intro j hj
    exact Function.update_of_ne (f.id ▸ hj) ..
  · exact { f with
      working := nofun
      held := fun t _ key hk => by
        have hm : t ∈ a.started := by
          rcases f.attached t with ⟨-, hm⟩ | ⟨-, hb, -⟩
          · exact hm
          · rw [hb] at hk
            exact absurd hk Std.ExtTreeMap.not_mem_empty
        dsimp only
        rw [f.id, Function.update_self, Actor.changes, Std.ExtTreeSet.mem_ofList,
          List.contains_iff_mem, List.mem_flatMap]
        exact ⟨t, hm, List.mem_map.2 ⟨key, Std.ExtTreeMap.mem_keys.2 hk, rfl⟩⟩
      sees := f.sees }

theorem refuse (h : Inv s) {i : TxId} {a : Actor} {e : Error} (ha : s.actors i = some a)
    (hp : a.progress = .working)
    (hr : (s.coordinator.reserve a.tx (a.changes s.tables)).1 = .error e) :
    Inv ((s.ask (.reserve a.tx (a.changes s.tables))).put i { a with progress := .failing }) := by
  have hp' : a.progress ≠ .over := by simp [hp]
  obtain ⟨stats, hask⟩ := Chronicle.serve_reserve_of_error hr
  exact h.ask_put hask nofun ha hp' nofun rfl rfl rfl (fun _ _ => rfl)
    { (h.fits i a ha hp').fail with sees := (h.fits i a ha hp').sees }

section Ending

variable {i : TxId} {b : Actor}
  (hrun : ∀ j : Nat, j ∈ d.coordinator.inProgress ↔ j ≠ i ∧ j ∈ s.coordinator.inProgress)
  (hq : b.progress = .over)

include hrun hq in
theorem running_end (h : Inv s) (j : TxId) :
    j ∈ d.coordinator.inProgress ↔ ∃ o, (s.put i b).actors j = some o ∧ o.progress ≠ .over := by
  rw [hrun]
  by_cases e : j = i
  · subst e
    simp [actors_put_self, hq]
  · rw [actors_put_of_ne _ e]
    exact (and_iff_right e).trans (h.running j)

include hq in
theorem fits_end (h : Inv s) (adv : s.chronicle.Advances d) (hheld : d.held = s.chronicle.held)
    (j : TxId) (o : Actor) (ho : (s.put i b).actors j = some o) (hop : o.progress ≠ .over) :
    o.Fits d s.tables j := by
  rcases actors_put_cases ho with ⟨rfl, rfl⟩ | ⟨-, ho⟩
  · exact absurd hq hop
  · exact h.fits_advance adv ho hop (congrFun hheld j)

end Ending

/-- An actor may end without a commit, if its versions are gone or hidden. -/
theorem ask_end (h : Inv s) {i : TxId} {a b : Actor}
    (hask : s.chronicle.serve r = d) (hr : ∀ tx, r = .invalidate tx → tx = a.tx)
    (ha : s.actors i = some a) (hp : a.progress ≠ .over) (hq : b.progress = .over)
    (hrun : ∀ j : Nat, j ∈ d.coordinator.inProgress ↔ j ≠ i ∧ j ∈ s.coordinator.inProgress)
    (hkept : ∀ w : Nat, w ∈ s.coordinator.invalid → w ∈ d.coordinator.invalid)
    (hcommits : d.commits = s.chronicle.commits) (hheld : d.held = s.chronicle.held)
    (hgone : i ∈ d.coordinator.invalid ∨ ∀ t, (a.overlays t).installed = false) :
    Inv ((s.ask r).put i b) := by
  have f := h.fits i a ha hp
  have hi : i ∈ s.coordinator.inProgress := (h.running i).2 ⟨a, ha, hp⟩
  have hd := hask ▸ h.lawful_serve (r := r) fun tx e => hr tx e ▸ f.id.symm ▸ hi
  unfold ask
  rw [hask]
  refine h.turn_of_commits_eq hd hcommits (running_end (s := s) hrun hq h)
    (fits_end (s := s) hq h hd.2 hheld) fun t key v hv => ?_
  rcases h.writers t key v hv with e | hk | hm | hw
  · exact .inl e
  · exact .inr (.inl (hcommits ▸ hk))
  · by_cases e : v.writer = i
    · refine hgone.elim (fun hw => .inr (.inr (.inr (e ▸ hw)))) fun hn => ?_
      obtain ⟨others, hothers, hne⟩ := f.own t key
      rw [hothers, Actor.own_eq_nil (hn t)] at hv
      exact absurd e (hne v hv)
    · exact .inr (.inr (.inl ((hrun _).2 ⟨e, hm⟩)))
  · exact .inr (.inr (.inr (hkept _ hw)))

theorem abort (h : Inv s) {i : TxId} {a : Actor} {tx : Transaction} {c : Coordinator}
    (ha : s.actors i = some a) (hp : a.progress = .failing)
    (hall : ∀ t, (a.overlays t).installed = false)
    (hc : s.coordinator.abort a.tx = .ok (tx, c)) :
    Inv ((s.ask (.abort a.tx)).put i { a with tx, progress := .over }) := by
  have hp' : a.progress ≠ .over := by simp [hp]
  obtain ⟨stats, hask⟩ := Chronicle.serve_abort_of_ok hc
  rw [(h.fits i a ha hp').id] at hask
  refine h.ask_end hask (fun _ e => nomatch e) ha hp' rfl (fun j => Coordinator.mem_finish)
    (fun w hw => ?_) rfl rfl (.inr hall)
  rwa [Coordinator.invalid_finish]

theorem invalidate (h : Inv s) {i : TxId} {a : Actor} (ha : s.actors i = some a)
    (hp : a.progress = .failing) :
    Inv ((s.ask (.invalidate a.tx)).put i
      { a with tx := (s.coordinator.invalidate a.tx).1, progress := .over }) := by
  have hp' : a.progress ≠ .over := by simp [hp]
  have f := h.fits i a ha hp'
  have hinvalid : (s.coordinator.invalidate a.tx).2.invalid = s.coordinator.invalid.insert i := by
    rw [← f.id]
    exact Coordinator.invalid_finish _ _
  refine h.ask_end rfl (fun _ e => (Request.invalidate.inj e).symm) ha hp' rfl
    (fun j => f.id ▸ Coordinator.mem_finish) (fun w hw => ?_) rfl rfl (.inl ?_)
  · show w ∈ (s.coordinator.invalidate a.tx).2.invalid
    rw [hinvalid]
    exact Std.ExtTreeSet.mem_insert.2 (.inr hw)
  · show i ∈ (s.coordinator.invalidate a.tx).2.invalid
    rw [hinvalid]
    exact Std.ExtTreeSet.mem_insert_self

theorem forget (h : Inv s) {ids : List TxId}
    (hids : ∀ id ∈ ids, ∀ t key, ∀ v ∈ (s.tables t).versions key, v.writer ≠ id) :
    Inv (s.ask (.forgetInvalid ids)) := by
  have hd := h.lawful_serve (r := .forgetInvalid ids) fun _ e => nomatch e
  refine h.turn_of_commits_eq hd rfl h.running
    (fun i a ha hp => h.fits_advance hd.2 ha hp rfl) fun t key v hv => ?_
  refine (h.writers t key v hv).serve nofun fun ids' e hm => ?_
  cases e
  exact hids v.writer hm t key v hv rfl

/-- After a commit, whoever begins reads what was written. -/
theorem newest_of_commit (h : Inv s) {i : TxId} {a : Actor} {d : Chronicle} {k : Commit}
    (ha : s.actors i = some a) (hp : a.progress ≠ .over)
    (hall : ∀ t, (a.overlays t).buffer = ∅ ∨ (a.overlays t).installed = true)
    (hcommits : d.commits = s.chronicle.commits ++ [k]) (hk : k.id = i)
    (hpointer : k.pointer = s.coordinator.next) (t : TableId) (key : Bytes) :
    Version.newest (d.isBefore (s.coordinator.next + 1)) ((s.tables t).versions key) =
      (a.overlays t).buffer[key]?.getD (s.rowsBefore s.coordinator.next t)[key]? := by
  have f := h.fits i a ha hp
  have hbefore : ∀ w : Nat, d.isBefore (s.coordinator.next + 1) w ↔
      s.chronicle.isBefore s.coordinator.next w ∨ w = i := by
    intro w
    rw [← h.isBefore_of_next_le (Nat.le_succ _), Chronicle.isBefore_iff, Chronicle.isBefore_iff,
      hcommits]
    simp [hk, hpointer, or_assoc, or_and_right, exists_or, eq_comm]
  obtain ⟨others, hothers, hne⟩ := f.own t key
  have hrest : Version.newest (d.isBefore (s.coordinator.next + 1)) others =
      Version.newest (s.chronicle.isBefore s.coordinator.next) others := by
    refine Version.newest_congr fun v hv => ?_
    rw [Bool.eq_iff_iff, hbefore]
    exact or_iff_left (hne v hv)
  have hvalues := h.values _ (.inr rfl) t key
  rw [hothers] at hvalues ⊢
  cases hb : (a.overlays t).buffer[key]? with
  | none =>
    rw [Actor.own_of_not_written hb, List.nil_append] at hvalues ⊢
    rw [hrest, hvalues]
    rfl
  | some v =>
    have hinstalled : (a.overlays t).installed = true := by
      refine (hall t).resolve_left fun e => ?_
      simp [e] at hb
    have hown : a.own t key = [⟨i, v⟩] := by
      unfold Actor.own
      rw [hinstalled, hb, f.id]
      rfl
    rw [hown, List.singleton_append, Version.newest_cons, if_pos ((hbefore i).2 (.inr rfl))]
    rfl

theorem commit (h : Inv s) {i : TxId} {a : Actor} {pointer : Nat} {tx : Transaction}
    {c : Coordinator} (ha : s.actors i = some a) (hp : a.progress = .reserved)
    (hall : ∀ t, (a.overlays t).buffer = ∅ ∨ (a.overlays t).installed = true)
    (hc : s.coordinator.commit a.tx = .ok (pointer, tx, c)) :
    Inv { (s.ask (.commit a.tx)).put i { a with tx, progress := .over } with
      written := Function.update s.written i fun t => (a.overlays t).buffer.toList } := by
  have hp' : a.progress ≠ .over := by simp [hp]
  have f := h.fits i a ha hp'
  have hi : i ∈ s.coordinator.inProgress := (h.running i).2 ⟨a, ha, hp'⟩
  obtain ⟨stats, hask⟩ := Chronicle.serve_commit_of_ok hc
  rw [f.id] at hask
  generalize hd : (Chronicle.mk .. : Chronicle) = d at hask
  have lawful := hask ▸ h.lawful_serve (r := .commit a.tx) fun _ e => nomatch e
  have hrun : ∀ j : Nat, j ∈ d.coordinator.inProgress ↔ j ≠ i ∧ j ∈ s.coordinator.inProgress :=
    fun j => hd ▸ Coordinator.mem_finish
  have hnext : d.coordinator.next = s.coordinator.next + 1 := hd ▸ Coordinator.next_finish _ _
  obtain ⟨k, hcommits, hk, hpointer, hchanges⟩ : ∃ k, d.commits = s.chronicle.commits ++ [k] ∧
      k.id = i ∧ k.pointer = s.coordinator.next ∧ k.changes = s.chronicle.held i :=
    ⟨_, by rw [← hd], rfl, rfl, rfl⟩
  have hheld : d.held = s.chronicle.held := by rw [← hd]
  clear hd
  have hold : ∀ k ∈ s.chronicle.commits, Function.update s.written i
      (fun t => (a.overlays t).buffer.toList) k.id = s.written k.id := by
    intro k hk
    refine Function.update_of_ne (fun e => ?_) ..
    exact (h.chronicle.fresh k hk).1 (e ▸ hi)
  unfold ask
  rw [hask]
  refine h.turn lawful (running_end (s := s) hrun rfl h)
    (fits_end (s := s) rfl h lawful.2 hheld) ?_ hold ?_ ?_
  · exact fun t key v hv => hask ▸ (h.writers t key v hv).serve nofun nofun
  · intro k' hk' hnot t w hw
    rw [hcommits] at hk'
    obtain rfl := List.mem_singleton.1 ((List.mem_append.1 hk').resolve_left hnot)
    rw [hk, Function.update_self] at hw
    rw [hchanges]
    refine f.held t (.inl hp) w.1 (Std.ExtTreeMap.mem_iff_isSome_getElem?.2 ?_)
    exact Option.isSome_of_eq_some (Std.ExtTreeMap.mem_toList_iff_getElem?_eq_some.1 hw)
  · intro n hle hle' hn t key
    obtain rfl : n = s.coordinator.next + 1 := by
      rcases hn with hn | hn
      · have := (h.chronicle.running n ((hrun n).1 hn).2).2
        exact absurd this (Nat.not_lt.2 hle)
      · exact hn.trans hnext
    have hrows := h.rowsBefore_of_commit (d := { s with
      chronicle := d
      written := Function.update s.written i fun t => (a.overlays t).buffer.toList })
      (t := t) hcommits hpointer rfl hold
    simp only [hk, Function.update_self] at hrows
    rw [h.newest_of_commit ha hp' hall hcommits hk hpointer,
      ← Table.getElem?_foldl_applyWrite_toList, ← hrows]
    rfl

/-! ## Runs -/

theorem step (h : Inv s) {e : Event} {d : Scene} (hd : Step s e d) : Inv d := by
  cases hd with
  | begin => exact h.begin
  | start ha hp hx => exact h.start ha hp hx
  | perform ha hp hx => exact h.perform ha hp hx
  | reserve ha hp hr => exact h.reserve ha hp hr
  | refuse ha hp hr => exact h.refuse ha hp hr
  | install ha hp hn hx => exact h.install ha hp hn hx
  | failInstall ha hp hn hx => exact h.failInstall ha hp hx
  | commit ha hp hall hc => exact h.commit ha hp hall hc
  | post ha hp => exact h.put_over ha hp hp
  | fail ha hp => exact h.fail ha fun e => by simp [e] at hp
  | rollback ha hp hx => exact h.rollback ha hp hx
  | abort ha hp hall hc => exact h.abort ha hp hall hc
  | invalidate ha hp => exact h.invalidate ha hp
  | takeHorizon => exact h.takeHorizon
  | prune hh t => exact h.prune hh t
  | forget hids => exact h.forget hids

end Inv

theorem inv_opened (names : TableId → String) (base : TableId → Std.ExtTreeMap Bytes Bytes)
    (logs : TableId → Option LogWriter) : Inv (opened names base logs) where
  chronicle := Chronicle.inv_new
  invalid w hw := by simp [opened, coordinator, Chronicle.new, Coordinator.new] at hw
  running i := by simp [opened, coordinator, Chronicle.new, Coordinator.new]
  fits i a ha := nomatch ha
  writers t key v hv := .inl (Table.writer_of_mem_baseRows hv)
  horizons h hh := nomatch hh
  values n _ t key := by
    show Version.newest _ ((Table.baseRows (base t)).getD key []) = (base t)[key]?
    rw [Table.versions_baseRows]
    cases (base t)[key]? with
    | none => rfl
    | some value => rfl
  written k hk := nomatch hk

/-- The invariant holds after every run. -/
theorem inv_of_steps {names : TableId → String} {base : TableId → Std.ExtTreeMap Bytes Bytes}
    {logs : TableId → Option LogWriter} (h : Steps (opened names base logs) s) : Inv s := by
  induction h with
  | refl => exact inv_opened names base logs
  | tail _ hd ih => exact ih.step hd.choose_spec

/-! ## Reading -/

/-- A row of which a transaction has installed no version is read as it was left before the
transaction began. -/
theorem Inv.get_eq (h : Inv s) {i : TxId} {a : Actor} (ha : s.actors i = some a)
    (hp : a.progress ≠ .over) {t : TableId} {key : Bytes} (hown : a.own t key = []) :
    (s.tables t).get a.tx key = (s.rowsBefore i t)[key]? := by
  have f := h.fits i a ha hp
  rw [← h.values i (.inl ((h.running i).2 ⟨a, ha, hp⟩)), Table.get_eq]
  obtain ⟨others, hothers, hne⟩ := f.own t key
  refine Version.newest_congr fun v hv => f.sees v.writer (h.writers t key v hv) ?_
  rw [hothers, hown, List.nil_append] at hv
  exact hne v hv

theorem Inv.advances (h : Inv s) {e : Event} {d : Scene} (hd : Step s e d) :
    s.chronicle.Advances d.chronicle ∧ d.base = s.base ∧
      ∀ k ∈ s.chronicle.commits, d.written k.id = s.written k.id := by
  have same := Chronicle.Advances.refl s.chronicle
  have ask : ∀ r : Request, (∀ tx, r ≠ .invalidate tx) →
      s.chronicle.Advances (s.chronicle.serve r) := fun r hr =>
    Chronicle.advances_serve s.chronicle r fun tx e => absurd e (hr tx)
  cases hd with
  | start | perform | install | failInstall | post | fail | rollback | takeHorizon | prune =>
    exact ⟨same, rfl, fun _ _ => rfl⟩
  | begin => exact ⟨ask .begin nofun, rfl, fun _ _ => rfl⟩
  | reserve | refuse => exact ⟨ask (.reserve _ _) nofun, rfl, fun _ _ => rfl⟩
  | abort => exact ⟨ask (.abort _) nofun, rfl, fun _ _ => rfl⟩
  | forget => exact ⟨ask (.forgetInvalid _) nofun, rfl, fun _ _ => rfl⟩
  | @commit i a pointer tx c ha hp hall hc =>
    refine ⟨ask (.commit _) nofun, rfl, fun k hk => Function.update_of_ne (fun e => ?_) ..⟩
    refine (h.chronicle.fresh k hk).1 (e ▸ (h.running i).2 ⟨a, ha, ?_⟩)
    simp [hp]
  | @invalidate i a ha hp =>
    have hp' : a.progress ≠ .over := by simp [hp]
    refine ⟨Chronicle.advances_serve s.chronicle (.invalidate a.tx) fun tx e => ?_, rfl,
      fun _ _ => rfl⟩
    rw [← Request.invalidate.inj e, (h.fits i a ha hp').id]
    exact (h.running i).2 ⟨a, ha, hp'⟩

/-- What was left before a number that is given out stays. -/
theorem Inv.rowsBefore_eq (h : Inv s) {d : Scene} (hd : Steps s d) {n : Nat}
    (hn : n ≤ s.coordinator.next) : d.rowsBefore n = s.rowsBefore n ∧ n ≤ d.coordinator.next := by
  suffices Inv d ∧ d.rowsBefore n = s.rowsBefore n ∧ n ≤ d.coordinator.next from this.2
  induction hd with
  | refl => exact ⟨h, rfl, hn⟩
  | tail _ hstep ih =>
    obtain ⟨hc, hrows, hle⟩ := ih
    obtain ⟨e, hstep⟩ := hstep
    obtain ⟨hadv, hbase, hold⟩ := hc.advances hstep
    exact ⟨hc.step hstep, (rowsBefore_of_advances hadv hle hbase hold).trans hrows,
      Nat.le_trans hle hadv.next_le⟩

/-- A running transaction reads what it wrote itself, and else what the commits with smaller numbers
than its own left, one after the other.  This is so for single rows and for scans, it is the same
commits in all tables, and it stays so. -/
theorem reads_snapshot {names : TableId → String} {base : TableId → Std.ExtTreeMap Bytes Bytes}
    {logs : TableId → Option LogWriter} (h : Steps (opened names base logs) s) {i : TxId}
    {a : Actor} (ha : s.actors i = some a) (hp : a.progress ≠ .over) {t : TableId}
    (hx : (a.overlays t).tx ≠ none) :
    (∀ key, (a.overlays t).read (s.tables t) key =
      .ok (match (a.overlays t).buffer[key]? with
        | some written => written
        | none => (s.rowsBefore i t)[key]?)) ∧
    (∀ start, (a.overlays t).scan (s.tables t) start =
      .ok (((a.overlays t).view (s.rowsBefore i t)).filter fun key _ =>
        start.isPrefixOf key).toList) ∧
    s.chronicle.commits.Pairwise (·.pointer < ·.pointer) ∧
    ∀ d, Steps s d → d.rowsBefore i = s.rowsBefore i := by
  have inv := inv_of_steps h
  have hi := (inv.chronicle.running i ((inv.running i).2 ⟨a, ha, hp⟩)).2
  have htx : (a.overlays t).tx = some a.tx := by
    rcases (inv.fits i a ha hp).attached t with ⟨htx, -⟩ | ⟨htx, -⟩
    · exact htx
    · exact absurd htx hx
  have hget : ∀ key, (a.overlays t).buffer[key]? = none →
      (s.tables t).get a.tx key = (s.rowsBefore i t)[key]? := fun key hb =>
    inv.get_eq ha hp (Actor.own_of_not_written hb)
  refine ⟨fun key => ?_, Overlay.scan_eq htx hget, ?_, fun d hd => ?_⟩
  · rw [Overlay.read_eq htx hget, Overlay.getElem?_view]
    cases (a.overlays t).buffer[key]? <;> rfl
  · exact inv.chronicle.precedes.imp fun hk => hk.pointer_lt
  · exact (inv.rowsBefore_eq hd (Nat.le_of_lt hi)).1

/-- A transaction that began before another one committed does not read what that one wrote. -/
theorem reads_snapshot_beside_commit :
    ∃ (s : Scene) (a : Actor),
      Steps (opened (fun _ => "t") (fun _ => ∅) fun _ => none) s ∧ s.actors 2 = some a ∧
        a.progress ≠ .over ∧ (a.overlays 0).tx ≠ none ∧
        s.chronicle.commits.map (·.pointer) = [3] ∧ (s.tables 0).versions [7] = [⟨1, some [8]⟩] ∧
        (a.overlays 0).read (s.tables 0) [7] = .ok none := by
  have h₁ : Steps (opened (fun _ => "t") (fun _ => ∅) fun _ => none) _ := .single ⟨_, .begin _⟩
  have h₂ := h₁.tail ⟨_, .start (i := 1) (t := 0) rfl rfl rfl⟩
  have h₃ := h₂.tail ⟨_, @Step.perform _ 1 _ 0 (.write [7] [8]) _ _ rfl rfl rfl⟩
  have h₄ := h₃.tail ⟨_, .begin _⟩
  have h₅ := h₄.tail ⟨_, .start (i := 2) (t := 0) rfl rfl rfl⟩
  have h₆ := h₅.tail ⟨_, .reserve (i := 1) rfl rfl rfl⟩
  have h₇ := h₆.tail ⟨_, .install (i := 1) (t := 0) rfl rfl rfl rfl⟩
  have h₈ := h₇.tail ⟨_, .commit (i := 1) rfl rfl (fun t => ?_) rfl⟩
  · refine ⟨_, _, h₈, rfl, Progress.noConfusion, Option.some_ne_none _, rfl, rfl, ?_⟩
    rw [(reads_snapshot (i := 2) (t := 0) h₈ rfl Progress.noConfusion (Option.some_ne_none _)).1 [7]]
    exact congrArg Except.ok (by decide +kernel)
  · by_cases e : t = 0
    · subst e
      exact .inr rfl
    · refine .inl ?_
      simp only [Actor.put, Function.update_of_ne e]
      rfl

end Scene

end NamespaceCatalog
