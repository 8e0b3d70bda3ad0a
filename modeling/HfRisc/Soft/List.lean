import HfRisc.Lib.Chain
import Mathlib.Data.Int.Notation

/-!
# The list library (`list.c`)

A list is a header node and the nodes behind it. `malloc` is given as the address it
returns, 0 if it fails; the loops have fuel, and `none` is a loop that has not ended or a
read of a node that is not there.
-/

namespace HfRisc.Soft

open HfRisc.Lib

variable {ε : Type}

/-- `t->next = next`. -/
def setNext (h : Nodes ε) (t next : ℕ) : Option (Nodes ε) :=
  (h t).map fun x => Function.update h t (some { x with next })

/-- `t->elem = elem`. -/
def setElem (h : Nodes ε) (t : ℕ) (elem : ε) : Option (Nodes ε) :=
  (h t).map fun x => Function.update h t (some { x with elem })

/-- `t->next`. -/
def getNext (h : Nodes ε) (t : ℕ) : Option ℕ := (h t).map Node.next

/-- `free(t)`. -/
def freeNode (h : Nodes ε) (t : ℕ) : Nodes ε := Function.update h t none

/-- `list_init`, with `a` from `malloc`. -/
def listInit (null : ε) (h : Nodes ε) (a : ℕ) : Nodes ε × ℕ :=
  if a ≠ 0 then (Function.update h a (some ⟨null, 0⟩), a) else (h, a)

/-- The loop of `list_append`: `while (t2->next) t2 = t2->next;`. -/
def lastNode (h : Nodes ε) : ℕ → ℕ → Option ℕ
  | 0, _ => none
  | fuel + 1, t2 => do
    let next ← getNext h t2
    if next ≠ 0 then lastNode h fuel next else some t2

/-- `list_append`, with `a` from `malloc`. -/
def listAppend (h : Nodes ε) (lst : ℕ) (item : ε) (a fuel : ℕ) : Option (Nodes ε × ℤ) :=
  if a ≠ 0 then do
    let h := Function.update h a (some ⟨item, 0⟩)
    let t2 ← lastNode h fuel lst
    let h ← setNext h t2 a
    some (h, 0)
  else some (h, -1)

/-- The loop of `list_insert`: the counter is incremented before it is compared. -/
def insertPoint (h : Nodes ε) (pos : ℤ) : ℕ → ℕ → ℤ → Option ℕ
  | 0, _, _ => none
  | fuel + 1, t2, i => do
    let next ← getNext h t2
    if next ≠ 0 then
      if i + 1 = pos then some next else insertPoint h pos fuel next (i + 1)
    else some t2

/-- `list_insert`, with `a` from `malloc`. -/
def listInsert (h : Nodes ε) (lst : ℕ) (item : ε) (pos : ℤ) (a fuel : ℕ) :
    Option (Nodes ε × ℤ) :=
  if a ≠ 0 then do
    let h := Function.update h a (some ⟨item, 0⟩)
    let t2 ← insertPoint h pos fuel lst 0
    let next ← getNext h t2
    let h ← setNext h a next
    let h ← setNext h t2 a
    some (h, 0)
  else some (h, -1)

/-- The loop of `list_remove`, `list_get` and `list_set`, which compare the counter before
they increment it: the node found and the one before it, or `none` behind the last node. -/
def seek (h : Nodes ε) (pos : ℤ) : ℕ → ℕ → ℤ → Option (Option (ℕ × ℕ))
  | 0, _, _ => none
  | fuel + 1, t2, i => do
    let t1 ← getNext h t2
    if t1 ≠ 0 then
      if i = pos then some (some (t2, t1)) else seek h pos fuel t1 (i + 1)
    else some none

/-- `list_remove`. -/
def listRemove (h : Nodes ε) (lst : ℕ) (pos : ℤ) (fuel : ℕ) : Option (Nodes ε × ℤ) := do
  match ← seek h pos fuel lst 0 with
  | some (t2, t1) =>
    let next ← getNext h t1
    let h ← setNext h t2 next
    some (freeNode h t1, 0)
  | none => some (h, -1)

/-- `list_get`. -/
def listGet (null : ε) (h : Nodes ε) (lst : ℕ) (pos : ℤ) (fuel : ℕ) : Option ε := do
  match ← seek h pos fuel lst 0 with
  | some (_, t1) => (h t1).map Node.elem
  | none => some null

/-- `list_set`. -/
def listSet (h : Nodes ε) (lst : ℕ) (item : ε) (pos : ℤ) (fuel : ℕ) :
    Option (Nodes ε × ℤ) := do
  match ← seek h pos fuel lst 0 with
  | some (_, t1) =>
    let h ← setElem h t1 item
    some (h, 0)
  | none => some (h, -1)

/-- The loop of `list_count`. -/
def countLoop (h : Nodes ε) : ℕ → ℕ → ℤ → Option ℤ
  | 0, _, _ => none
  | fuel + 1, t1, i => do
    let t1 ← getNext h t1
    if t1 ≠ 0 then countLoop h fuel t1 (i + 1) else some i

/-- `list_count`. -/
def listCount (h : Nodes ε) (lst fuel : ℕ) : Option ℤ := countLoop h fuel lst 0

/-! ## Calls -/

/-- The calls that change a list, with what `malloc` returns in them. -/
inductive Call (ε : Type)
  | append (item : ε) (a : ℕ)
  | insert (item : ε) (pos : ℤ) (a : ℕ)
  | remove (pos : ℤ)
  | set (item : ε) (pos : ℤ)

/-- What a call does, and what it returns. -/
def Call.exec (h : Nodes ε) (lst fuel : ℕ) : Call ε → Option (Nodes ε × ℤ)
  | .append item a => listAppend h lst item a fuel
  | .insert item pos a => listInsert h lst item pos a fuel
  | .remove pos => listRemove h lst pos fuel
  | .set item pos => listSet h lst item pos fuel

end HfRisc.Soft
