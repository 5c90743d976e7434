import Cppkg.Lib.OrderedSet
import Mathlib.Data.Option.Basic
import Mathlib.Logic.Function.Basic

/-!
# `estd/hashlist.hpp`

A `HashList` is a linked list of different values and a hash map that says where in the list each of
them is.  Every operation updates the two separately.

The model is of all the objects of a program together, because an iterator is not bound to the
object that has it: it is a pair of the object whose list it is of, and of a node of that list.
Objects and nodes are numbered, and no number is used twice.  The hash decides in which bucket of
the map a value is, and nothing else, so the map is a partial function.  What C++ leaves undefined
is `none`: using an object that does not exist, or a position that is not one of the list it is
used on.
-/

set_option autoImplicit false

namespace Cppkg
namespace Estd

/-- An iterator. -/
structure Iter where
  /-- The object whose list it is of. -/
  owner : ℕ
  /-- The node it points to; none is the `end()` of the list. -/
  node : Option ℕ
  deriving DecidableEq, Repr

/-- A `HashList` object. -/
structure HashList (T : Type) where
  /-- `lst_`: the nodes, and the values they hold. -/
  lst : List (ℕ × T)
  /-- `umap_`. -/
  umap : T → Option Iter

/-- The objects of a program. -/
structure Memory (T : Type) where
  /-- The number of the next node. -/
  next : ℕ
  objects : ℕ → Option (HashList T)

variable {T : Type}

namespace HashList

/-- The values in the list. -/
def values (l : HashList T) : List T := l.lst.map Prod.snd

/-- The nodes of the list. -/
def nodes (l : HashList T) : List ℕ := l.lst.map Prod.fst

/-- The object as default-constructed. -/
def empty : HashList T := ⟨[], fun _ ↦ none⟩

/-- How many nodes there are before a position, if that is one of the list. -/
def indexOf (l : HashList T) : Option ℕ → Option ℕ
  | none => some l.lst.length
  | some n => l.nodes.findIdx? (· == n)

/-- `begin()`, advanced by `i`. -/
def nodeAt (l : HashList T) (i : ℕ) : Option ℕ := l.nodes[i]?

end HashList

namespace Memory

/-- No objects. -/
def init : Memory T := ⟨0, fun _ ↦ none⟩

variable [DecidableEq T] (m : Memory T) (self : ℕ)

/-- An object changes. -/
def put (l : HashList T) : Memory T :=
  { m with objects := Function.update m.objects self (some l) }

/-! ## Operations -/

/-- `push_back`. -/
def pushBack (val : T) : Option (Memory T × Iter) := do
  let l ← m.objects self
  match l.umap val with
  | some position => some (m, position)
  | none =>
    let n := m.next
    let lst := l.lst ++ [(n, val)]
    let position := ⟨self, some n⟩
    let umap := Function.update l.umap val (some position)
    some ({ m with next := n + 1 }.put self ⟨lst, umap⟩, position)

/-- `insert`. -/
def insert (position : Iter) (val : T) : Option (Memory T × Iter) := do
  let l ← m.objects self
  match l.umap val with
  | some position => some (m, position)
  | none =>
    if position.owner = self then
      let i ← l.indexOf position.node
      let n := m.next
      let lst := l.lst.take i ++ (n, val) :: l.lst.drop i
      let position := ⟨self, some n⟩
      let umap := Function.update l.umap val (some position)
      some ({ m with next := n + 1 }.put self ⟨lst, umap⟩, position)
    else none

/-- `pop_back`. -/
def popBack : Option (Memory T) := do
  let l ← m.objects self
  match l.lst.getLast? with
  | none => some m
  | some back => some (m.put self ⟨l.lst.dropLast, Function.update l.umap back.2 none⟩)

/-- `erase` of a list: the node goes, out of whichever list it is in. -/
def listErase (position : Iter) : Option (Memory T) := do
  let l ← m.objects position.owner
  let n ← position.node
  let i ← l.indexOf (some n)
  some (m.put position.owner { l with lst := l.lst.eraseIdx i })

/-- `erase`. -/
def erase (val : T) : Option (Memory T) := do
  let l ← m.objects self
  match l.umap val with
  | none => some m
  | some position =>
    let m ← m.listErase position
    let l ← m.objects self
    some (m.put self { l with umap := Function.update l.umap val none })

/-- `clear`. -/
def clear : Option (Memory T) := do
  let _ ← m.objects self
  some (m.put self .empty)

/-- The range constructor.  The default constructor is that of an empty range. -/
def construct (vals : List T) : Option (Memory T) :=
  if m.objects self = none then
    vals.foldlM (fun m val ↦ (m.pushBack self val).map Prod.fst) (m.put self .empty)
  else none

/-- One operation on an object, with what it returns.  A position is given as `begin()`, advanced by
some number: every valid one is that, `end()` included. -/
def call : OrderedSet.Op T → Option (Memory T × Option Iter)
  | .pushBack val => (m.pushBack self val).map fun r ↦ (r.1, some r.2)
  | .insert i val => do
    let l ← m.objects self
    if i ≤ l.lst.length then
      (m.insert self ⟨self, l.nodeAt i⟩ val).map fun r ↦ (r.1, some r.2)
    else none
  | .erase val => (m.erase self val).map (·, none)
  | .popBack => (m.popBack self).map (·, none)
  | .clear => (m.clear self).map (·, none)

/-! ## Copies

The copy operations are the implicit ones: each member is copied, the list by allocating new nodes,
the map with the iterators that are in it. -/

/-- Copy the members of `l`. -/
def copyMembers (l : HashList T) : Memory T :=
  { m with next := m.next + l.lst.length }.put self
    ⟨(List.range' m.next l.lst.length).zip l.values, l.umap⟩

/-- The copy constructor. -/
def copyConstruct (other : ℕ) : Option (Memory T) := do
  let l ← m.objects other
  if m.objects self = none then some (m.copyMembers self l) else none

/-- The copy assignment.  The members see that they are assigned to themselves. -/
def copyAssign (other : ℕ) : Option (Memory T) := do
  let l ← m.objects other
  let _ ← m.objects self
  if self = other then some m else some (m.copyMembers self l)

/-- The destructor. -/
def destroy : Option (Memory T) := do
  let _ ← m.objects self
  some { m with objects := Function.update m.objects self none }

/-! ## Runs -/

/-- What a program does with its objects. -/
inductive Event (T : Type)
  | construct (self : ℕ) (vals : List T)
  | copyConstruct (self other : ℕ)
  | copyAssign (self other : ℕ)
  | destroy (self : ℕ)
  | call (self : ℕ) (op : OrderedSet.Op T)
  deriving DecidableEq, Repr

/-- The object that an event is about. -/
def Event.target : Event T → ℕ
  | .construct self _ | .copyConstruct self _ | .copyAssign self _ | .destroy self
  | .call self _ => self

/-- The step of an event. -/
def step : Event T → Option (Memory T)
  | .construct self vals => m.construct self vals
  | .copyConstruct self other => m.copyConstruct self other
  | .copyAssign self other => m.copyAssign self other
  | .destroy self => m.destroy self
  | .call self op => (m.call self op).map Prod.fst

end Memory
end Estd
end Cppkg
