import Mathlib.Algebra.GroupWithZero.Nat
import Mathlib.Data.List.Basic

/-!
# Machine operations

Indexing, slicing and arithmetic of a fixed width, each of which stops the program where it has no result.
-/

namespace Ripclone.Library

inductive Panic where
  /-- "index out of bounds" -/
  | index
  /-- "range start index … out of range for slice of length …" -/
  | slice
  /-- "attempt to add with overflow" -/
  | add
  /-- "attempt to subtract with overflow" -/
  | subtract
  /-- "attempt to multiply with overflow" -/
  | multiply
  /-- "attempt to shift left with overflow" -/
  | shiftLeft
  deriving DecidableEq, Repr

section Slices

variable {α : Type}

def indexChecked (xs : List α) (i : Nat) : Except Panic α :=
  match xs[i]? with
  | some x => .ok x
  | none => .error .index

/-- `xs[i] = x`. -/
def setChecked (xs : List α) (i : Nat) (x : α) : Except Panic (List α) :=
  if i < xs.length then .ok (xs.set i x) else .error .index

/-- `&xs[start..stop]`. -/
def sliceRange (xs : List α) (start stop : Nat) : Except Panic (List α) :=
  if start ≤ stop ∧ stop ≤ xs.length then .ok ((xs.take stop).drop start) else .error .slice

/-- `&xs[start..]`. -/
def sliceFrom (xs : List α) (start : Nat) : Except Panic (List α) :=
  if start ≤ xs.length then .ok (xs.drop start) else .error .slice

/-- `xs.get(start..stop)`. -/
def getSlice (xs : List α) (start stop : Nat) : Option (List α) :=
  if start ≤ stop ∧ stop ≤ xs.length then some ((xs.take stop).drop start) else none

end Slices

section Arithmetic

def addWidth (width a b : Nat) : Except Panic Nat :=
  if a + b < 2 ^ width then .ok (a + b) else .error .add

def mulWidth (width a b : Nat) : Except Panic Nat :=
  if a * b < 2 ^ width then .ok (a * b) else .error .multiply

def subChecked (a b : Nat) : Except Panic Nat :=
  if b ≤ a then .ok (a - b) else .error .subtract

/-- Only a shift by the width or more panics, bits that leave at the top are lost. -/
def shl64 (value shift : Nat) : Except Panic Nat :=
  if shift < 64 then .ok (value <<< shift % 2 ^ 64) else .error .shiftLeft

end Arithmetic

variable {α β : Type}

theorem ok_bind_panic (a : α) (f : α → Except Panic β) : (Except.ok a >>= f) = f a := rfl

theorem indexChecked_of_lt {xs : List α} {i : Nat} (h : i < xs.length) :
    indexChecked xs i = .ok xs[i] := by
  rw [indexChecked, List.getElem?_eq_getElem h]

theorem sliceFrom_of_le {xs : List α} {start : Nat} (h : start ≤ xs.length) :
    sliceFrom xs start = .ok (xs.drop start) := if_pos h

theorem setChecked_of_lt {xs : List α} {i : Nat} {x : α} (h : i < xs.length) :
    setChecked xs i x = .ok (xs.set i x) := if_pos h

theorem sliceRange_of_le {xs : List α} {start stop : Nat} (hstart : start ≤ stop)
    (hstop : stop ≤ xs.length) : sliceRange xs start stop = .ok ((xs.take stop).drop start) :=
  if_pos ⟨hstart, hstop⟩

theorem mulWidth_of_lt {width a b : Nat} (h : a * b < 2 ^ width) : mulWidth width a b = .ok (a * b) :=
  if_pos h

theorem addWidth_of_lt {width a b : Nat} (h : a + b < 2 ^ width) : addWidth width a b = .ok (a + b) :=
  if_pos h

end Ripclone.Library
