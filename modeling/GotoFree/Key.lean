/-!
# Keys

Every text this library writes lists its names, blocks and coordinates in one fixed order. A `Key`
is a type that has such an order. The instances here cover numbers, text, pairs and lists of texts;
a domain type becomes a key by `Key.ofInjective`, which orders its values as their images.
-/

namespace GotoFree

/-- A type with a decidable strict total order. -/
class Key (α : Type) where
  /-- Whether the first value stands before the second. -/
  before : α → α → Bool
  /-- No value stands before itself. -/
  before_irrefl : ∀ a, before a a = false
  /-- The order is transitive. -/
  before_trans : ∀ {a b c}, before a b = true → before b c = true → before a c = true
  /-- Two values of which neither stands before the other are equal. -/
  before_total : ∀ {a b}, before a b = false → before b a = false → a = b

namespace Key

theorem before_asymm {α : Type} [Key α] {a b : α} (first : before a b = true) :
    before b a = false := by
  cases second : before b a with
  | false => rfl
  | true => simpa [before_irrefl] using before_trans first second

/-- Values are ordered as their images under an injective map. -/
@[reducible] def ofInjective {α β : Type} [Key β] (image : α → β)
    (injective : ∀ {a b}, image a = image b → a = b) : Key α where
  before a b := before (image a) (image b)
  before_irrefl a := before_irrefl (image a)
  before_trans := before_trans
  before_total left right := injective (before_total left right)

instance : Key Nat where
  before a b := decide (a < b)
  before_irrefl := by simp
  before_trans := by simp; omega
  before_total := by simp; omega

/-- Text is ordered by the code points of its characters. -/
instance : Key String where
  before a b := decide (a < b)
  before_irrefl a := decide_eq_false (String.lt_irrefl a)
  before_trans := by
    intro a b c
    simp only [decide_eq_true_eq]
    exact String.lt_trans
  before_total := by
    intro a b left right
    simp only [decide_eq_false_iff_not, String.not_lt] at left right
    exact String.le_antisymm right left

/-- Pairs are ordered by their first components, and by the second ones where those agree. -/
instance {α β : Type} [Key α] [Key β] : Key (α × β) where
  before p q := before p.1 q.1 || (!before q.1 p.1 && before p.2 q.2)
  before_irrefl p := by simp [before_irrefl]
  before_trans := by
    intro p q r left right
    simp only [Bool.or_eq_true, Bool.and_eq_true, Bool.not_eq_true'] at *
    rcases left with left | ⟨left, left'⟩
    · rcases right with right | ⟨right, _⟩
      · exact .inl (before_trans left right)
      · cases agree : before q.1 r.1 with
        | true => exact .inl (before_trans left agree)
        | false => exact .inl (before_total right agree ▸ left)
    · rcases right with right | ⟨right, right'⟩
      · cases agree : before p.1 q.1 with
        | true => exact .inl (before_trans agree right)
        | false => exact .inl (before_total agree left ▸ right)
      · cases agree : before p.1 q.1 with
        | true =>
            cases other : before q.1 r.1 with
            | true => exact .inl (before_trans agree other)
            | false => exact .inl (before_total right other ▸ agree)
        | false =>
            rw [before_total agree left]
            exact .inr ⟨right, before_trans left' right'⟩
  before_total := by
    intro p q left right
    simp only [Bool.or_eq_false_iff, Bool.and_eq_false_iff, Bool.not_eq_false'] at *
    have first : p.1 = q.1 := before_total left.1 right.1
    have second : p.2 = q.2 := by
      apply before_total
      · simpa [right.1] using left.2
      · simpa [left.1] using right.2
    exact Prod.ext first second

/-- Lists of texts are ordered by the first place where they differ; a list stands before those it
begins. -/
instance : Key (List String) where
  before a b := decide (a < b)
  before_irrefl a := decide_eq_false (List.lt_irrefl a)
  before_trans := by
    intro a b c
    simp only [decide_eq_true_eq]
    exact List.lt_trans
  before_total := by
    intro a b left right
    simp only [decide_eq_false_iff_not, List.not_lt] at left right
    exact List.le_antisymm right left

end Key

end GotoFree
