import Cornerstone.Messages
import Mathlib.Data.Finset.Card
import Mathlib.Data.Finset.Range
import Mathlib.Logic.Function.Basic

/-! # Reference counted pointers

`ptr<T>` and `ptr<T&>` over a heap of the blocks `cs_new` makes: two counters in front of
an object.  A handle is a variable of the program or a part of an object, and goes when
the object goes.  A block that is freed stays in the model, so that a use of it can be
told: reading its counters, or a handle inside it, is a `fault`.

The destructor of an object destroys the handles that are part of it, one after the other,
in an order of the type's own.
-/

namespace Cornerstone.Ptr

/-- What a block and its object have come to. -/
structure Cell where
  strong : Int := 0
  weak : Int := 0
  /-- How often the destructor of the object has been run. -/
  destroyed : Nat := 0
  /-- How often the block has been freed. -/
  freed : Nat := 0
deriving DecidableEq, Repr

/-- A `ptr<T>`, or a `ptr<T&>` where it is weak. -/
structure Handle where
  weak : Bool := false
  /-- `p_`. -/
  target : Option Nat := none
  /-- The block of the object it is a part of, or none for a variable of the program. -/
  owner : Option Nat := none
  live : Bool := false
deriving DecidableEq, Repr

/-- The blocks and handles made so far, by number. -/
structure Heap where
  cell : Nat → Cell := fun _ => {}
  handle : Nat → Handle := fun _ => {}
  cells : Nat := 0
  handles : Nat := 0

/-- How an operation goes wrong. -/
inductive Fault
  | freed
  | hang
deriving DecidableEq, Repr

/-- The order in which a destructor destroys the parts of an object. -/
def DestroyOrder := { order : List Nat → List Nat // ∀ l, (order l).Perm l }

/-- The last part first. -/
def DestroyOrder.backwards : DestroyOrder := ⟨List.reverse, List.reverse_perm⟩

/-- What an `int32` counter holds. -/
def int32 (i : Int) : Int := Int.bmod i uintSize

namespace Heap
variable (s : Heap)

def setCell (b : Nat) (c : Cell) : Heap := { s with cell := Function.update s.cell b c }

def setHandle (h : Nat) (hd : Handle) : Heap := { s with handle := Function.update s.handle h hd }

/-- A new handle. -/
def push (hd : Handle) : Heap :=
  { s with handle := Function.update s.handle s.handles hd, handles := s.handles + 1 }

/-- A handle whose destructor has begun. -/
def kill (h : Nat) : Heap := s.setHandle h { s.handle h with live := false }

def setTarget (h : Nat) (t : Option Nat) : Heap := s.setHandle h { s.handle h with target := t }

/-- The counters of a block, which must not be freed. -/
def counters (b : Nat) : Except Fault Cell :=
  if (s.cell b).freed > 0 then .error .freed else .ok (s.cell b)

/-- `p_` of a handle, which must not lie in a freed block. -/
def p (h : Nat) : Except Fault (Option Nat) := do
  match (s.handle h).owner with
  | none => return (s.handle h).target
  | some o =>
    let _ ← s.counters o
    return (s.handle h).target

/-- The handles that are part of an object. -/
def members (b : Nat) : List Nat :=
  (List.range s.handles).filter fun i => (s.handle i).live ∧ (s.handle i).owner = some b

/-- `_inc_ref`. -/
def incRef (weak : Bool) : Option Nat → Except Fault Heap
  | none => .ok s
  | some b => do
    let c ← s.counters b
    if weak then
      return s.setCell b { c with weak := int32 (c.weak + 1) }
    else
      return s.setCell b { c with strong := int32 (c.strong + 1) }

/-- `--` on the second counter, and `free` where the test on the counters says so. -/
def decWeak (last : Cell → Bool) (b : Nat) : Except Fault Heap := do
  let c ← s.counters b
  let c := { c with weak := int32 (c.weak - 1) }
  if last c then
    return s.setCell b { c with freed := c.freed + 1 }
  else
    return s.setCell b c

/-- `_dec_ref_and_free`.  A weak handle frees where it is the last of all; a strong one runs the
destructor where it is the last strong one, counting itself as weak for as long. -/
def decRefAndFree (order : DestroyOrder) : Nat → Heap → Nat → Except Fault Heap
  | 0, _, _ => .error .hang
  | fuel + 1, s, h => do
    match ← s.p h with
    | none => return s
    | some b =>
      if (s.handle h).weak then
        s.decWeak (fun c => c.weak = 0 ∧ c.strong = 0) b
      else do
        let c ← s.counters b
        let c := { c with strong := int32 (c.strong - 1) }
        if c.strong = 0 then do
          let s := s.setCell b { c with weak := int32 (c.weak + 1), destroyed := c.destroyed + 1 }
          let s ← (order.1 (s.members b)).foldlM (fun s m => decRefAndFree order fuel (s.kill m) m) s
          -- the handle's own memory has to be there still
          let _ ← s.p h
          s.decWeak (fun c => c.weak = 0) b
        else
          return s.setCell b c

end Heap

/-! ## Operations -/

/-- What a program does with handles. -/
inductive Op
  /-- The default constructor. -/
  | empty (weak : Bool) (owner : Option Nat)
  | csNew (owner : Option Nat)
  /-- The copy constructors, among them those of a weak handle from a strong one. -/
  | copy (weak : Bool) (src : Nat) (owner : Option Nat)
  | move (src : Nat) (owner : Option Nat)
  /-- `operator &` of a weak handle. -/
  | promote (src : Nat) (owner : Option Nat)
  /-- `operator bool` of a weak handle. -/
  | test (h : Nat)
  | assign (dst src : Nat)
  | reset (h : Nat)
  | destroy (h : Nat)
deriving DecidableEq, Repr

namespace Heap

/-- A destructor runs at most once for each block there is. -/
def release (order : DestroyOrder) (s : Heap) (h : Nat) : Except Fault Heap :=
  decRefAndFree order (s.cells + 1) s h

/-- `p_ != nilptr && strong > 0`. -/
def test (s : Heap) (t : Option Nat) : Except Fault Bool :=
  match t with
  | none => return false
  | some b => do
    let c ← s.counters b
    return c.strong > 0

/-- One operation. -/
def step (order : DestroyOrder) (s : Heap) : Op → Except Fault Heap
  | .empty weak owner => return s.push ⟨weak, none, owner, true⟩
  | .csNew owner => do
    let b := s.cells
    let s := { s.setCell b {} with cells := b + 1 }
    let s ← s.incRef false (some b)
    return s.push ⟨false, some b, owner, true⟩
  | .copy weak src owner => do
    let t ← s.p src
    let s ← s.incRef weak t
    return s.push ⟨weak, t, owner, true⟩
  | .move src owner => do
    let t ← s.p src
    let s := s.push ⟨(s.handle src).weak, t, owner, true⟩
    return s.setTarget src none
  | .promote src owner => do
    let t ← s.p src
    let alive ← s.test t
    if alive then do
      let s ← s.incRef false t
      return s.push ⟨false, t, owner, true⟩
    else
      return s.push ⟨false, none, owner, true⟩
  | .test h => do
    let t ← s.p h
    let _ ← s.test t
    return s
  | .assign dst src => do
    let s ← s.release order dst
    let t ← s.p src
    let _ ← s.p dst
    let s := s.setTarget dst t
    s.incRef (s.handle dst).weak t
  | .reset h => do
    let s ← s.release order h
    let _ ← s.p h
    return s.setTarget h none
  | .destroy h => (s.kill h).release order h

/-- A program's operations, one after the other. -/
def run (order : DestroyOrder) (s : Heap) (ops : List Op) : Except Fault Heap := ops.foldlM (step order) s

end Heap

end Cornerstone.Ptr
