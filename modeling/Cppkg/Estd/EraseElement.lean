import Cppkg.Estd.Copies

/-!
# Erasing an element by a reference to it

`erase` takes its argument by reference and reads it three times: for `has`, for `umap_[val]`, and,
when the node is gone from the list, for `umap_.erase(val)`.  The reference may be to an element of
the very list, as in `a.erase(a.front())`.  It then reads what is in the node, if there is the node.
-/

set_option autoImplicit false

namespace Cppkg
namespace Estd
namespace Memory

open HashList

/-- What there is not when something is used that is not there. -/
inductive Undefined
  | object | position | element
deriving DecidableEq

variable {T α : Type}

/-- What is used has to be there. -/
def require (e : Undefined) : Option α → Except Undefined α
  | some a => .ok a
  | none => .error e

section

variable (m : Memory T) (self n : ℕ)

/-- What is read through a reference to the element in the node `n` of the list of `self`. -/
def read : Except Undefined T := do
  let l ← require .object (m.objects self)
  require .element (l.lst.lookup n)

/-- `erase` with such a reference. -/
def eraseElement [DecidableEq T] : Except Undefined (Memory T) := do
  let l ← require .object (m.objects self)
  let val ← m.read self n
  if (l.umap val).isNone then
    return m
  let val ← m.read self n
  let position ← require .position (l.umap val)
  let m ← require .position (m.listErase position)
  let l ← require .object (m.objects self)
  let val ← m.read self n
  return m.put self { l with umap := Function.update l.umap val none }

/-- The element, which is `val` in the node `n`, goes out of the list and out of the map. -/
def ErasesElement [DecidableEq T] (l : HashList T) (val : T) : Prop :=
  ∃ m', m.eraseElement self n = .ok m' ∧ m'.objects self
    = some ⟨l.lst.filter fun e ↦ e.1 ≠ n, Function.update l.umap val none⟩

end

/-! ## What is read -/

variable {m m' : Memory T} {self n : ℕ} {l : HashList T} {val : T}

@[simp] theorem require_eq_ok {e : Undefined} {o : Option α} {a : α} :
    require e o = .ok a ↔ o = some a := by
  cases o <;> simp [require]

theorem read_eq_ok (hl : m.objects self = some l) :
    m.read self n = .ok val ↔ l.lst.lookup n = some val := by
  rw [read, hl]
  exact require_eq_ok

/-- What is read is in the list. -/
theorem mem_nodes_of_read (hl : m.objects self = some l) (h : m.read self n = .ok val) :
    n ∈ l.nodes := by
  rw [read_eq_ok hl, List.lookup_eq_some_iff] at h
  obtain ⟨l₁, l₂, hlst, -⟩ := h
  simp [HashList.nodes, hlst]

/-- A node that is gone cannot be read. -/
theorem read_of_notMem (hl : m.objects self = some l) (hn : n ∉ l.nodes) :
    m.read self n = .error .element := by
  have hnone : l.lst.lookup n = none := by
    rw [List.lookup_eq_none_iff]
    intro e he
    have hne : n ≠ e.1 := fun heq ↦ hn (List.mem_map.mpr ⟨e, he, heq.symm⟩)
    simp [hne]
  rw [read, hl]
  change require .element (l.lst.lookup n) = _
  rw [hnone]
  rfl

/-- An element of a list can be read: no other one is in its node. -/
theorem read_of_mem (h : l.Coupled self m.next) (hl : m.objects self = some l)
    (hmem : (n, val) ∈ l.lst) : m.read self n = .ok val := by
  obtain ⟨l₁, l₂, hlst⟩ := List.append_of_mem hmem
  rw [read_eq_ok hl, List.lookup_eq_some_iff]
  refine ⟨l₁, l₂, hlst, fun e he ↦ ?_⟩
  have hnodes := h.nodes
  rw [HashList.nodes, hlst, List.map_append, List.map_cons] at hnodes
  have hne := List.disjoint_of_nodup_append hnodes (List.mem_map_of_mem he)
  exact bne_iff_ne.mpr fun heq ↦ hne (List.mem_cons.mpr (.inl heq.symm))

theorem bind_eq_ok {β : Type} {x : Except Undefined α} {f : α → Except Undefined β} {b : β} :
    (x >>= f) = .ok b ↔ ∃ a, x = .ok a ∧ f a = .ok b := by
  cases x <;> simp [bind, Except.bind]

variable [DecidableEq T]

/-- **When it is over, the node is in the list**, whatever the iterators in the map point to: if it
were not, it could not have been read. -/
theorem mem_nodes_of_eraseElement (hl : m.objects self = some l) (hn : n ∈ l.nodes)
    (h : m.eraseElement self n = .ok m') : ∃ l', m'.objects self = some l' ∧ n ∈ l'.nodes := by
  rw [eraseElement, bind_eq_ok] at h
  obtain ⟨l₀, hl₀, h⟩ := h
  rw [bind_eq_ok] at h
  obtain ⟨val, -, h⟩ := h
  split at h
  · cases h
    exact ⟨l, hl, hn⟩
  · simp only [bind_eq_ok, require_eq_ok] at h
    obtain ⟨-, -, -, -, m₁, -, l₁, hl₁, val₁, hread, h⟩ := h
    cases h
    have hn₁ : n ∈ l₁.nodes := mem_nodes_of_read hl₁ hread
    exact ⟨_, Function.update_self _ _ _, hn₁⟩

/-- **What happens to an element of a list whose iterators are its own**: its node goes out of the
list, and is read again. -/
theorem eraseElement_of_coupled (h : l.Coupled self m.next) (hl : m.objects self = some l)
    (hmem : (n, val) ∈ l.lst) : m.eraseElement self n = .error .element := by
  have humap : l.umap val = some ⟨self, some n⟩ := (h.umap val _).mpr ⟨n, rfl, hmem⟩
  obtain ⟨n', i, hposition, hindex, hi⟩ := h.indexOf_umap humap
  cases hposition
  have herase : m.listErase ⟨self, some n⟩
      = some (m.put self { l with lst := l.lst.eraseIdx i }) := by
    simp [listErase, hl, hindex]
  have hgone : n ∉ ({ l with lst := l.lst.eraseIdx i } : HashList T).nodes :=
    (List.nodup_cons.mp (h.perm (Coupled.perm_eraseIdx hi).symm).nodes).1
  have hput : (m.put self { l with lst := l.lst.eraseIdx i }).objects self
      = some { l with lst := l.lst.eraseIdx i } := Function.update_self _ _ _
  have hread := read_of_mem h hl hmem
  have hread' := read_of_notMem hput hgone
  simp [eraseElement, require, bind, Except.bind, hl, hread, humap, herase, hput, hread']

/-- **No element is erased by a reference to it.**  If the iterators in the map point into the list
itself, as they do when no elements were copied, a node is read that is not there; if they do not,
the element stays in the list. -/
theorem not_erasesElement (es : List (Event T)) (m : Memory T) (self n : ℕ) (l : HashList T)
    (val : T) (h : run es = some m) (hl : m.objects self = some l) (hmem : (n, val) ∈ l.lst) :
    ¬ m.ErasesElement self n l val ∧
      (Steps.Meets step CopiesNothing init es → m.eraseElement self n = .error .element) := by
  constructor
  · rintro ⟨m', hm', hl'⟩
    have hn : n ∈ l.nodes := List.mem_map.mpr ⟨(n, val), hmem, rfl⟩
    obtain ⟨l'', hl'', hn'⟩ := mem_nodes_of_eraseElement hl hn hm'
    obtain rfl := Option.some.inj (hl'.symm.trans hl'')
    obtain ⟨e, he, rfl⟩ := List.mem_map.mp hn'
    simpa using List.of_mem_filter he
  · intro hes
    have hcoupled := ((independent_iff h).mpr hes).coupled es [] m (List.append_nil es).symm h
    exact eraseElement_of_coupled (hcoupled self l hl) hl hmem

/-- The list was copied, and what the copy is asked to erase goes out of the original. -/
theorem not_erasesElement_copy : ∃ (m : Memory ℕ) (l : HashList ℕ),
    run [.construct 0 [2, 5], .copyConstruct 1 0] = some m ∧ m.objects 1 = some l ∧
      ¬ m.ErasesElement 1 3 l 5 := by
  refine ⟨_, _, rfl, rfl, ?_⟩
  exact (not_erasesElement [.construct 0 [2, 5], .copyConstruct 1 0] _ 1 3 _ 5 rfl rfl
    (by decide)).1

/-- The first element of a list is erased by a reference to it. -/
theorem not_erasesElement_front : ¬ ∀ (es : List (Event ℕ)) (m : Memory ℕ) self n l val,
    run es = some m → m.objects self = some l → (n, val) ∈ l.lst →
      m.ErasesElement self n l val := by
  intro h
  obtain ⟨m', hm', -⟩ := h [.construct 0 [2, 5]] _ 0 0 _ 2 rfl rfl (by decide)
  cases hm'

end Memory
end Estd
end Cppkg
