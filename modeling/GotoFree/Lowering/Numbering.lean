/-!
# Numbers in the order of first use

A `Numbering` gives each value that asks for a number the position at which it asked first. Flags
and the sites of temporaries are numbered this way, so the numbers do not depend on how the values
are ordered.
-/

namespace GotoFree

/-- The values that have a number, in the order in which they got it. -/
structure Numbering (α : Type) where
  order : List α

namespace Numbering

variable {α : Type}

/-- No value has a number. -/
def empty : Numbering α := ⟨[]⟩

instance : Inhabited (Numbering α) := ⟨empty⟩

/-- The number of a value, and the numbering in which it has that number. -/
def number [DecidableEq α] (numbering : Numbering α) (value : α) : Nat × Numbering α :=
  if value ∈ numbering.order then (numbering.order.idxOf value, numbering)
  else (numbering.order.length, ⟨numbering.order ++ [value]⟩)

/-- A value that has a number keeps it; another one is put at the end of the order. -/
theorem order_number [DecidableEq α] (numbering : Numbering α) (value : α) :
    (numbering.number value).2.order =
      if value ∈ numbering.order then numbering.order else numbering.order ++ [value] := by
  unfold number
  split <;> rfl

/-- The number of a value is its position in the order. -/
theorem getElem?_number [DecidableEq α] (numbering : Numbering α) (value : α) :
    (numbering.number value).2.order[(numbering.number value).1]? = some value := by
  unfold number
  split
  · next known =>
    have bound : numbering.order.idxOf value < numbering.order.length :=
      List.idxOf_lt_length_iff.2 known
    rw [List.getElem?_eq_getElem bound, List.getElem_idxOf bound]
  · simp

/-- No value has two numbers. -/
theorem nodup_number [DecidableEq α] {numbering : Numbering α} {value : α}
    (distinct : numbering.order.Nodup) : (numbering.number value).2.order.Nodup := by
  rw [order_number]
  split
  · exact distinct
  · next fresh =>
    refine List.nodup_append.2 ⟨distinct, by simp, ?_⟩
    rintro a known b last rfl
    simp only [List.mem_singleton] at last
    exact fresh (last ▸ known)

/-- The values with their numbers, counted from a start. -/
def listed (numbering : Numbering α) (start : Nat) : List (Nat × α) :=
  numbering.order.zipIdx.map fun (value, index) => (start + index, value)

end Numbering

end GotoFree
