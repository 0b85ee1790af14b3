import ThreeAddress.Operator
/-!
# Stores

A `Store` gives some keys a word each. Only look-up can be observed, so two stores that agree on
every key are as good as equal.

* `Store.get?`, `Store.set`, `Store.setAll` : the operations;
* `Store.get?_set`, `Store.set_self` : writing one key changes nothing else, and nothing at all if
  the key has that word.
-/

namespace ThreeAddress

/-- Words by key. -/
structure Store (κ : Type) where
  /-- The bindings; the first one of a key counts. -/
  bindings : List (κ × Word)

namespace Store

variable {κ : Type} [DecidableEq κ]

/-- The store without any binding. -/
def empty : Store κ := ⟨[]⟩

instance : Inhabited (Store κ) := ⟨empty⟩

/-- Look for the first binding of a key. -/
def find? (k : κ) : List (κ × Word) → Option Word
  | [] => none
  | (l, w) :: rest => if l = k then some w else find? k rest

/-- Rewrite the first binding of a key, or add one behind all others. -/
def rebind (k : κ) (w : Word) : List (κ × Word) → List (κ × Word)
  | [] => [(k, w)]
  | (l, v) :: rest => if l = k then (k, w) :: rest else (l, v) :: rebind k w rest

/-- The word of a key. -/
def get? (s : Store κ) (k : κ) : Option Word := find? k s.bindings

/-- Write the word of a key. -/
def set (s : Store κ) (k : κ) (w : Word) : Store κ := ⟨rebind k w s.bindings⟩

/-- Write the words of several keys, one after the other. -/
def setAll (s : Store κ) (l : List (κ × Word)) : Store κ := l.foldl (fun s e => s.set e.1 e.2) s

theorem find?_rebind {k x : κ} {w : Word} (l : List (κ × Word)) :
    find? x (rebind k w l) = if x = k then some w else find? x l := by
  induction l with
  | nil =>
    by_cases h : x = k
    · simp [rebind, find?, h]
    · have : k ≠ x := fun e => h e.symm
      simp [rebind, find?, h, this]
  | cons e rest ih =>
    obtain ⟨m, v⟩ := e
    by_cases hm : m = k
    · subst hm
      by_cases h : x = m
      · simp [rebind, find?, h]
      · have : m ≠ x := fun e => h e.symm
        simp [rebind, find?, h, this]
    · rw [rebind, if_neg hm, find?, find?, ih]
      by_cases h : x = k
      · have : m ≠ x := fun e => hm (e.trans h)
        simp [h]
        exact fun e => absurd e hm
      · simp [h]

@[simp] theorem get?_empty (k : κ) : (empty : Store κ).get? k = none := rfl

theorem get?_set (s : Store κ) (k x : κ) (w : Word) :
    (s.set k w).get? x = if x = k then some w else s.get? x := find?_rebind s.bindings

/-- Writing the word that a key has anyway changes nothing. -/
theorem set_self {s : Store κ} {k : κ} {w : Word} (h : s.get? k = some w) : s.set k w = s := by
  obtain ⟨bindings⟩ := s
  refine congrArg Store.mk ?_
  induction bindings with
  | nil => cases h
  | cons e rest ih =>
    obtain ⟨m, v⟩ := e
    have h : (if m = k then some v else find? k rest) = some w := h
    by_cases hm : m = k
    · subst hm
      rw [if_pos rfl, Option.some.injEq] at h
      rw [rebind, if_pos rfl, h]
    · rw [if_neg hm] at h
      rw [rebind, if_neg hm]
      exact congrArg _ (ih h)

end Store

end ThreeAddress
