/-
MathMarkup/Proofs/Writes.lean

Dictionaries as the record of what was written to them.  Under each key stands
what was written there last (`find?_insertAll`), and since the entries are kept in
order, a dictionary is determined by what stands under its keys (`ext_find?`).  Two
ways of filling a dictionary are therefore the same as soon as the last writes are.

Writes often come in sections, each of which is a map and has no order of its own.
`Reordered sections ws` says that `ws` are the entries of the sections, those of each
section in any order.  No such order makes a difference (`insertAll_reordered`),
because within a section every key is written once.
-/
import MathMarkup.Dictionary

namespace MathMarkup

namespace Dictionary

variable {α : Type}

/-! ### Entries under a key -/

theorem findIn_append (k : Bytes) (es es' : List (Bytes × α)) :
    findIn k (es ++ es') = (findIn k es).or (findIn k es') := by
  induction es with
  | nil => rfl
  | cons e es ih =>
    obtain ⟨k', v⟩ := e
    by_cases h : k = k'
    · simp [findIn, h]
    · simp [findIn, h, ih]

theorem findIn_eq_none_iff {k : Bytes} {es : List (Bytes × α)} :
    findIn k es = none ↔ ∀ e ∈ es, e.1 ≠ k := by
  induction es with
  | nil => simp [findIn]
  | cons e es ih =>
    obtain ⟨k', v⟩ := e
    by_cases h : k = k'
    · simp [findIn, h]
    · simp [findIn, h, ih, Ne.symm h]

/-- The entry found under a key is the first one with it. -/
theorem findIn_eq_some_iff {k : Bytes} {v : α} {es : List (Bytes × α)} :
    findIn k es = some v ↔
      ∃ before after, es = before ++ (k, v) :: after ∧ ∀ e ∈ before, e.1 ≠ k := by
  constructor
  · intro h
    induction es with
    | nil => cases h
    | cons e es ih =>
      obtain ⟨k', v'⟩ := e
      by_cases hk : k = k'
      · subst hk
        have hv : v' = v := by simpa [findIn] using h
        exact ⟨[], es, by rw [hv]; rfl, List.forall_mem_nil _⟩
      · have hrest : findIn k es = some v := by simpa [findIn, hk] using h
        obtain ⟨before, after, hes, hbefore⟩ := ih hrest
        refine ⟨(k', v') :: before, after, by rw [hes]; rfl, ?_⟩
        exact List.forall_mem_cons.mpr ⟨Ne.symm hk, hbefore⟩
  · rintro ⟨before, after, rfl, hbefore⟩
    rw [findIn_append, findIn_eq_none_iff.mpr hbefore]
    simp [findIn]

/-- If no two entries have the same key, all of them are found. -/
theorem findIn_eq_some_iff_mem {k : Bytes} {v : α} {es : List (Bytes × α)}
    (h : (es.map Prod.fst).Nodup) : findIn k es = some v ↔ (k, v) ∈ es := by
  rw [findIn_eq_some_iff]
  constructor
  · rintro ⟨before, after, rfl, -⟩
    simp
  · intro hmem
    obtain ⟨before, after, rfl⟩ := List.append_of_mem hmem
    refine ⟨before, after, rfl, ?_⟩
    intro e he heq
    -- The key would occur twice: in the entry itself and in one before it.
    rw [List.map_append, List.map_cons, List.nodup_append] at h
    exact h.2.2 e.1 (List.mem_map_of_mem he) k List.mem_cons_self heq

/-! ### Last writes -/

/-- What was written last under a key, if anything was. -/
def lastWrite? (k : Bytes) (ws : List (Bytes × α)) : Option α :=
  findIn k ws.reverse

@[simp] theorem lastWrite?_nil (k : Bytes) : lastWrite? k ([] : List (Bytes × α)) = none :=
  rfl

/-- Later writes come before earlier ones. -/
theorem lastWrite?_append (k : Bytes) (ws ws' : List (Bytes × α)) :
    lastWrite? k (ws ++ ws') = (lastWrite? k ws').or (lastWrite? k ws) := by
  rw [lastWrite?, List.reverse_append, findIn_append]
  rfl

theorem lastWrite?_singleton (k k' : Bytes) (v : α) :
    lastWrite? k' [(k, v)] = if k' = k then some v else none :=
  rfl

theorem lastWrite?_eq_none_iff {k : Bytes} {ws : List (Bytes × α)} :
    lastWrite? k ws = none ↔ ∀ w ∈ ws, w.1 ≠ k := by
  rw [lastWrite?, findIn_eq_none_iff]
  simp only [List.mem_reverse]

/-- Behind the last write under a key there is none with that key. -/
theorem lastWrite?_eq_some_iff {k : Bytes} {v : α} {ws : List (Bytes × α)} :
    lastWrite? k ws = some v ↔
      ∃ before after, ws = before ++ (k, v) :: after ∧ ∀ w ∈ after, w.1 ≠ k := by
  rw [lastWrite?, findIn_eq_some_iff]
  constructor
  · rintro ⟨after, before, hws, hafter⟩
    refine ⟨before.reverse, after.reverse, ?_, ?_⟩
    · rw [← List.reverse_reverse ws, hws]
      simp
    · simpa only [List.mem_reverse] using hafter
  · rintro ⟨before, after, rfl, hafter⟩
    refine ⟨after.reverse, before.reverse, by simp, ?_⟩
    simpa only [List.mem_reverse] using hafter

theorem lastWrite?_eq_some_iff_mem {k : Bytes} {v : α} {ws : List (Bytes × α)}
    (h : (ws.map Prod.fst).Nodup) : lastWrite? k ws = some v ↔ (k, v) ∈ ws := by
  have hreverse : (ws.reverse.map Prod.fst).Nodup :=
    ((List.reverse_perm ws).map Prod.fst).nodup_iff.mpr h
  rw [lastWrite?, findIn_eq_some_iff_mem hreverse, List.mem_reverse]

/-- The order in which different keys are written makes no difference. -/
theorem lastWrite?_perm {k : Bytes} {ws ws' : List (Bytes × α)} (hperm : ws.Perm ws')
    (h : (ws.map Prod.fst).Nodup) : lastWrite? k ws = lastWrite? k ws' := by
  have h' : (ws'.map Prod.fst).Nodup := (hperm.map Prod.fst).nodup_iff.mp h
  apply Option.ext
  intro v
  rw [lastWrite?_eq_some_iff_mem h, lastWrite?_eq_some_iff_mem h']
  exact hperm.mem_iff

/-! ### Filling a dictionary -/

@[simp] theorem insertAll_nil (d : Dictionary α) : d.insertAll [] = d :=
  rfl

theorem insertAll_append (d : Dictionary α) (ws ws' : List (Bytes × α)) :
    d.insertAll (ws ++ ws') = (d.insertAll ws).insertAll ws' :=
  List.foldl_append

/-- Under a key stands what was written there last, or else what stood there
before. -/
theorem find?_insertAll (d : Dictionary α) (ws : List (Bytes × α)) (k : Bytes) :
    (d.insertAll ws).find? k = (lastWrite? k ws).or (d.find? k) := by
  induction ws generalizing d with
  | nil => rfl
  | cons w ws ih =>
    obtain ⟨k', v⟩ := w
    show ((d.insert k' v).insertAll ws).find? k = _
    rw [ih, find?_insert, ← List.singleton_append, lastWrite?_append, lastWrite?_singleton,
      Option.or_assoc]
    by_cases h : k = k' <;> simp [h]

/-- The keys of a dictionary are all different. -/
theorem nodup_keys (d : Dictionary α) : (d.entries.map Prod.fst).Nodup := by
  have hincreasing : (d.entries.map Prod.fst).Pairwise (· < ·) :=
    List.pairwise_map.mpr d.increasing
  refine hincreasing.imp ?_
  intro k k' hlt heq
  exact List.lt_irrefl k (heq ▸ hlt)

theorem nodup_entries (d : Dictionary α) : d.entries.Nodup :=
  List.Pairwise.of_map Prod.fst (fun _ _ hne heq => hne (congrArg Prod.fst heq)) d.nodup_keys

/-- A dictionary finds exactly its entries. -/
theorem mem_entries_iff {d : Dictionary α} {k : Bytes} {v : α} :
    (k, v) ∈ d.entries ↔ d.find? k = some v :=
  (findIn_eq_some_iff_mem d.nodup_keys).symm

/-- A dictionary is what it finds under its keys. -/
theorem ext_find? {d d' : Dictionary α} (h : ∀ k, d.find? k = d'.find? k) : d = d' := by
  have hmem : ∀ e, e ∈ d.entries ↔ e ∈ d'.entries := by
    rintro ⟨k, v⟩
    rw [mem_entries_iff, mem_entries_iff, h]
  have hperm : d.entries.Perm d'.entries :=
    (List.perm_ext_iff_of_nodup d.nodup_entries d'.nodup_entries).mpr hmem
  have hentries : d.entries = d'.entries := by
    refine hperm.eq_of_pairwise ?_ d.increasing d'.increasing
    intro e e' _ _ hlt hlt'
    exact absurd (List.lt_trans hlt hlt') (List.lt_irrefl e.1)
  obtain ⟨entries, hincreasing⟩ := d
  obtain rfl : entries = d'.entries := hentries
  rfl

/-- The order in which different keys are entered makes no difference. -/
theorem insertAll_perm (d : Dictionary α) {ws ws' : List (Bytes × α)} (hperm : ws.Perm ws')
    (h : (ws.map Prod.fst).Nodup) : d.insertAll ws = d.insertAll ws' := by
  apply ext_find?
  intro k
  rw [find?_insertAll, find?_insertAll, lastWrite?_perm hperm h]

/-! ### Sections -/

/-- The entries of sections one section after another, those of each in some
order. -/
inductive Reordered : List (List (Bytes × α)) → List (Bytes × α) → Prop
  | nil : Reordered [] []
  | cons {es order : List (Bytes × α)} {sections : List (List (Bytes × α))}
      {ws : List (Bytes × α)} :
      order.Perm es → Reordered sections ws → Reordered (es :: sections) (order ++ ws)

/-- The order of the entries within their sections makes no difference. -/
theorem insertAll_reordered {sections : List (List (Bytes × α))} {ws : List (Bytes × α)}
    (h : Reordered sections ws) (hkeys : ∀ es ∈ sections, (es.map Prod.fst).Nodup)
    (d : Dictionary α) : d.insertAll ws = d.insertAll sections.flatten := by
  induction h generalizing d with
  | nil => rfl
  | cons hperm _ ih =>
    obtain ⟨hsection, hsections⟩ := List.forall_mem_cons.mp hkeys
    rw [List.flatten_cons, insertAll_append, insertAll_append, ih hsections,
      insertAll_perm d hperm.symm hsection]

end Dictionary

end MathMarkup
