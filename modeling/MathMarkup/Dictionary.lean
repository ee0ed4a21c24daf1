/-
MathMarkup/Dictionary.lean

Finite maps from texts, kept as a list of entries whose keys strictly increase
in byte order.  The order is part of the type, so listing the entries is
listing them sorted, and every key occurs once.  A key has one value: entering
it again replaces the value.

`find?_insert` says what an insertion does to every key, and with it everything
that is true of a sequence of insertions follows.
-/
import MathMarkup.Text.Bytes

namespace MathMarkup

namespace Dictionary

variable {α : Type}

/-- Keys strictly increase. -/
def Increasing (es : List (Bytes × α)) : Prop :=
  es.Pairwise fun a b => a.1 < b.1

/-- Enters a value under a key at its place, replacing the one there. -/
def insertSorted (k : Bytes) (v : α) : List (Bytes × α) → List (Bytes × α)
  | [] => [(k, v)]
  | (k', v') :: rest =>
    if k = k' then (k, v) :: rest
    else if k < k' then (k, v) :: (k', v') :: rest
    else (k', v') :: insertSorted k v rest

theorem key_lt_of_not {k k' : Bytes} (hne : k ≠ k') (hlt : ¬ k < k') : k' < k := by
  rcases List.le_total k k' with h | h
  · exact absurd (List.le_antisymm h (List.not_lt.mp hlt)) hne
  · exact List.not_le.mp fun h' => hne (List.le_antisymm h' h)

theorem mem_insertSorted {k : Bytes} {v : α} {es : List (Bytes × α)} {e : Bytes × α}
    (h : e ∈ insertSorted k v es) : e = (k, v) ∨ e ∈ es := by
  induction es with
  | nil => simpa [insertSorted] using h
  | cons p rest ih =>
    obtain ⟨k', v'⟩ := p
    simp only [insertSorted] at h
    split at h
    · rcases List.mem_cons.mp h with h | h
      · exact .inl h
      · exact .inr (List.mem_cons_of_mem _ h)
    · split at h
      · rcases List.mem_cons.mp h with h | h
        · exact .inl h
        · exact .inr h
      · rcases List.mem_cons.mp h with h | h
        · exact .inr (h ▸ List.mem_cons_self)
        · rcases ih h with h | h
          · exact .inl h
          · exact .inr (List.mem_cons_of_mem _ h)

theorem increasing_insertSorted (k : Bytes) (v : α) {es : List (Bytes × α)}
    (h : Increasing es) : Increasing (insertSorted k v es) := by
  induction es with
  | nil => simp [insertSorted, Increasing]
  | cons p rest ih =>
    obtain ⟨k', v'⟩ := p
    have hp := List.pairwise_cons.mp h
    simp only [insertSorted]
    split
    · next heq => exact List.pairwise_cons.mpr ⟨fun e he => heq ▸ hp.1 e he, hp.2⟩
    · next hne =>
      split
      · next hlt =>
        refine List.pairwise_cons.mpr ⟨fun e he => ?_, h⟩
        rcases List.mem_cons.mp he with he | he
        · exact he ▸ hlt
        · exact List.lt_trans hlt (hp.1 e he)
      · next hlt =>
        refine List.pairwise_cons.mpr ⟨fun e he => ?_, ih hp.2⟩
        rcases mem_insertSorted he with he | he
        · exact he ▸ key_lt_of_not hne hlt
        · exact hp.1 e he

/-- The value under a key of a list of entries. -/
def findIn (k : Bytes) : List (Bytes × α) → Option α
  | [] => none
  | (k', v) :: rest => if k = k' then some v else findIn k rest

theorem findIn_insertSorted (k k' : Bytes) (v : α) (es : List (Bytes × α)) :
    findIn k' (insertSorted k v es) = if k' = k then some v else findIn k' es := by
  induction es with
  | nil => simp [insertSorted, findIn]
  | cons p rest ih =>
    obtain ⟨k'', v''⟩ := p
    simp only [insertSorted]
    split
    · next heq => subst heq; by_cases h : k' = k <;> simp [findIn, h]
    · split
      · simp [findIn]
      · next hne _ =>
        simp only [findIn, ih]
        by_cases h : k' = k''
        · simp [h, Ne.symm hne]
        · simp [h]

end Dictionary

/-- A map from texts, its entries in strictly increasing order of keys. -/
structure Dictionary (α : Type) where
  entries : List (Bytes × α)
  increasing : Dictionary.Increasing entries

namespace Dictionary

variable {α : Type}

/-- No entries. -/
def empty : Dictionary α :=
  ⟨[], List.Pairwise.nil⟩

instance : Inhabited (Dictionary α) := ⟨empty⟩

/-- Enters a value under a key, replacing the one there. -/
def insert (d : Dictionary α) (k : Bytes) (v : α) : Dictionary α :=
  ⟨insertSorted k v d.entries, increasing_insertSorted k v d.increasing⟩

/-- The value under a key. -/
def find? (d : Dictionary α) (k : Bytes) : Option α :=
  findIn k d.entries

/-- How many keys there are. -/
def size (d : Dictionary α) : Nat :=
  d.entries.length

/-- Enters pairs one after another, so that of two under one key the later
stays. -/
def insertAll (d : Dictionary α) (pairs : List (Bytes × α)) : Dictionary α :=
  pairs.foldl (fun d (k, v) => d.insert k v) d

@[simp] theorem find?_empty (k : Bytes) : (empty : Dictionary α).find? k = none :=
  rfl

@[simp] theorem find?_insert (d : Dictionary α) (k k' : Bytes) (v : α) :
    (d.insert k v).find? k' = if k' = k then some v else d.find? k' :=
  findIn_insertSorted k k' v d.entries

end Dictionary

end MathMarkup
