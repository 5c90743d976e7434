import Cppkg.Estd.HashList
import Cppkg.Lib.Steps
import Mathlib.Data.List.InsertIdx
import Mathlib.Data.List.Perm.Basic

/-!
# A `HashList` is an ordered set

`Coupled` is what the list and the map of an object have to do with each other: every iterator in
the map points to the node of the object's own list that holds the value it is filed under.
`call_spec` says that every operation keeps to that, and does to the values what it does to an
ordered set; from it, `hashList_refines` says so of every sequence of operations.
-/

set_option autoImplicit false

namespace Cppkg
namespace Estd

variable {T : Type} {self next : ℕ}

/-! ## The list and the map -/

namespace HashList

/-- The map says where in the list each value is. -/
structure Coupled (l : HashList T) (owner next : ℕ) : Prop where
  nodes : l.nodes.Nodup
  fresh : ∀ n ∈ l.nodes, n < next
  values : l.values.Nodup
  umap : ∀ val position, l.umap val = some position ↔
    ∃ n, position = ⟨owner, some n⟩ ∧ (n, val) ∈ l.lst

theorem coupled_empty : (empty : HashList T).Coupled self next where
  nodes := .nil
  fresh := by simp [HashList.nodes, empty]
  values := .nil
  umap := by simp [empty]

namespace Coupled

variable {l : HashList T} {lst : List (ℕ × T)} {val : T} {n : ℕ}

theorem mono (h : l.Coupled self next) {next' : ℕ} (hle : next ≤ next') : l.Coupled self next' :=
  ⟨h.nodes, fun n hn ↦ Nat.lt_of_lt_of_le (h.fresh n hn) hle, h.values, h.umap⟩

/-- The order of the list does not matter to the map. -/
theorem perm (h : l.Coupled self next) (hlst : lst.Perm l.lst) :
    (⟨lst, l.umap⟩ : HashList T).Coupled self next where
  nodes := (hlst.map Prod.fst).nodup_iff.mpr h.nodes
  fresh n hn := h.fresh n ((hlst.map Prod.fst).mem_iff.mp hn)
  values := (hlst.map Prod.snd).nodup_iff.mpr h.values
  umap val position := by simp only [h.umap, hlst.mem_iff]

/-- The values are the keys of the map. -/
theorem mem_values (h : l.Coupled self next) : val ∈ l.values ↔ (l.umap val).isSome = true := by
  rw [Option.isSome_iff_exists, HashList.values, List.mem_map]
  constructor
  · rintro ⟨⟨n, v⟩, hmem, rfl⟩
    exact ⟨⟨self, some n⟩, (h.umap v _).mpr ⟨n, rfl, hmem⟩⟩
  · rintro ⟨position, hp⟩
    obtain ⟨n, -, hmem⟩ := (h.umap val position).mp hp
    exact ⟨(n, val), hmem, rfl⟩

theorem notMem_values (h : l.Coupled self next) (hval : l.umap val = none) : val ∉ l.values := by
  rw [h.mem_values, hval]
  simp

/-- The map finds the node of a value. -/
theorem indexOf_umap (h : l.Coupled self next) {position : Iter}
    (hp : l.umap val = some position) : ∃ n i, position = ⟨self, some n⟩ ∧
      l.indexOf (some n) = some i ∧ l.lst[i]? = some (n, val) := by
  obtain ⟨n, rfl, hmem⟩ := (h.umap val position).mp hp
  obtain ⟨i, hi⟩ := List.mem_iff_getElem?.mp hmem
  have hn : l.nodes[i]? = some n := by rw [HashList.nodes, List.getElem?_map, hi, Option.map_some]
  obtain ⟨hlt, hn'⟩ := List.getElem?_eq_some_iff.mp hn
  refine ⟨n, i, rfl, ?_, hi⟩
  rw [indexOf, List.findIdx?_eq_some_iff_getElem]
  refine ⟨hlt, by simpa using hn', fun j hj hjn ↦ ?_⟩
  have heq : l.nodes[j] = l.nodes[i] := (beq_iff_eq.mp hjn).trans hn'.symm
  exact Nat.ne_of_lt hj (h.nodes.getElem_inj_iff.mp heq)

/-- Erasing a node takes what is in it out of the list. -/
theorem perm_eraseIdx {i : ℕ} (hi : l.lst[i]? = some (n, val)) :
    l.lst.Perm ((n, val) :: l.lst.eraseIdx i) := by
  obtain ⟨hlt, hi'⟩ := List.getElem?_eq_some_iff.mp hi
  rw [← hi']
  exact (List.getElem_cons_eraseIdx_perm hlt).symm

/-- A position that `begin()` is advanced to is where it should be. -/
theorem indexOf_nodeAt (h : l.Coupled self next) {i : ℕ} (hi : i ≤ l.lst.length) :
    l.indexOf (l.nodeAt i) = some i := by
  rcases Nat.lt_or_eq_of_le hi with hlt | rfl
  · have hlt' : i < l.nodes.length := by simpa [HashList.nodes] using hlt
    rw [nodeAt, List.getElem?_eq_getElem hlt', indexOf, List.findIdx?_eq_some_iff_getElem]
    refine ⟨hlt', by simp, fun j hj hjn ↦ ?_⟩
    exact Nat.ne_of_lt hj (h.nodes.getElem_inj_iff.mp (beq_iff_eq.mp hjn))
  · rw [nodeAt, List.getElem?_eq_none (by simp [HashList.nodes]), indexOf]

/-- The ordered set that a list and a map stand for. -/
def set (h : l.Coupled self next) : OrderedSet T := ⟨l.values, h.values⟩

theorem length_set (h : l.Coupled self next) : h.set.elems.length = l.lst.length := by
  simp [Coupled.set, HashList.values]

variable [DecidableEq T]

/-- A value is added, in a new node, anywhere in the list. -/
theorem add (h : l.Coupled self next) (hval : l.umap val = none)
    (hlst : lst.Perm ((next, val) :: l.lst)) :
    (⟨lst, Function.update l.umap val (some ⟨self, some next⟩)⟩ : HashList T).Coupled self
      (next + 1) := by
  have hcons : (⟨(next, val) :: l.lst,
      Function.update l.umap val (some ⟨self, some next⟩)⟩ : HashList T).Coupled self
        (next + 1) := by
    refine ⟨?_, ?_, ?_, ?_⟩
    · exact List.nodup_cons.mpr ⟨fun hmem ↦ Nat.lt_irrefl _ (h.fresh next hmem), h.nodes⟩
    · intro n hn
      rcases List.mem_cons.mp hn with rfl | hn
      · exact Nat.lt_succ_self _
      · exact Nat.lt_succ_of_lt (h.fresh n hn)
    · exact List.nodup_cons.mpr ⟨h.notMem_values hval, h.values⟩
    · intro v position
      by_cases hv : v = val
      · subst hv
        simp only [Function.update_self, Option.some.injEq, List.mem_cons, Prod.mk.injEq, and_true]
        constructor
        · rintro rfl
          exact ⟨next, rfl, .inl rfl⟩
        · rintro ⟨n, rfl, rfl | hmem⟩
          · rfl
          · exact absurd (List.mem_map.mpr ⟨_, hmem, rfl⟩) (h.notMem_values hval)
      · simp [h.umap, hv]
  exact hcons.perm hlst

/-- A value is taken out, with its node. -/
theorem remove (h : l.Coupled self next) (hlst : l.lst.Perm ((n, val) :: lst)) :
    (⟨lst, Function.update l.umap val none⟩ : HashList T).Coupled self next := by
  have hcons := h.perm hlst.symm
  obtain ⟨hn, hnodes⟩ := List.nodup_cons.mp hcons.nodes
  obtain ⟨hval, hvalues⟩ := List.nodup_cons.mp hcons.values
  refine ⟨hnodes, fun n hn ↦ hcons.fresh n (List.mem_cons_of_mem _ hn), hvalues, ?_⟩
  intro v position
  by_cases hv : v = val
  · subst hv
    simp only [Function.update_self, reduceCtorEq, false_iff]
    rintro ⟨n', -, hmem⟩
    exact hval (List.mem_map.mpr ⟨_, hmem, rfl⟩)
  · have := hcons.umap v position
    simpa [Function.update_of_ne hv, hv] using this

end Coupled
end HashList

/-! ## Operations -/

namespace Memory

open HashList

variable {m m' : Memory T} {l l' : HashList T} {val : T}

/-- The object changes to `l'`, and no other does. -/
structure Becomes (m m' : Memory T) (id : ℕ) (l' : HashList T) : Prop where
  objects : m'.objects = Function.update m.objects id (some l')
  next_le : m.next ≤ m'.next
  coupled : l'.Coupled id m'.next

namespace Becomes

theorem object (h : m.Becomes m' self l') : m'.objects self = some l' := by
  rw [h.objects, Function.update_self]

theorem trans {m'' : Memory T} {l'' : HashList T} (h : m.Becomes m' self l')
    (h' : m'.Becomes m'' self l'') : m.Becomes m'' self l'' where
  objects := by rw [h'.objects, h.objects, Function.update_idem]
  next_le := Nat.le_trans h.next_le h'.next_le
  coupled := h'.coupled

end Becomes

theorem becomes_self (hl : m.objects self = some l) (h : l.Coupled self m.next) :
    m.Becomes m self l :=
  ⟨by rw [← hl, Function.update_eq_self], Nat.le_refl _, h⟩

/-- The object `id` is the ordered set `set`. -/
structure IsSet (m : Memory T) (id : ℕ) (set : OrderedSet T) (l : HashList T) : Prop where
  object : m.objects id = some l
  coupled : l.Coupled id m.next
  values : l.values = set.elems

theorem IsSet.set_eq {id : ℕ} {set : OrderedSet T} (h : m.IsSet id set l) : h.coupled.set = set :=
  OrderedSet.ext h.values

theorem Becomes.isSet {set : OrderedSet T} (h : m.Becomes m' self l') (hl : l'.values = set.elems) :
    m'.IsSet self set l' :=
  ⟨h.object, h.coupled, hl⟩

theorem clear_spec (hl : m.objects self = some l) :
    ∃ m' l', m.clear self = some m' ∧ m.Becomes m' self l' ∧ l'.values = [] := by
  have hcall : m.clear self = some (m.put self .empty) := by simp [clear, hl]
  exact ⟨_, _, hcall, ⟨rfl, Nat.le_refl _, coupled_empty⟩, rfl⟩

variable [DecidableEq T]

/-- `insert`: what is there already stays as it is, and what is not is put before the position. -/
theorem insert_spec (val : T) (hl : m.objects self = some l) (h : l.Coupled self m.next) {i : ℕ}
    (hi : i ≤ l.lst.length) : ∃ m' l' position,
      m.insert self ⟨self, l.nodeAt i⟩ val = some (m', position) ∧ m.Becomes m' self l' ∧
        l'.values = (h.set.insert i val).elems ∧ l'.umap val = some position ∧
        (val ∈ l.values → m' = m) := by
  cases hval : l.umap val with
  | some position =>
    have hmem : val ∈ l.values := h.mem_values.mpr (by rw [hval]; rfl)
    refine ⟨m, l, position, by simp [insert, hl, hval], becomes_self hl h, ?_, hval, fun _ ↦ rfl⟩
    rw [OrderedSet.insert_of_mem (s := h.set) hmem]
    rfl
  | none =>
    have hnot := h.notMem_values hval
    have hperm : (l.lst.take i ++ (m.next, val) :: l.lst.drop i).Perm ((m.next, val) :: l.lst) := by
      have := @List.perm_middle _ (m.next, val) (l.lst.take i) (l.lst.drop i)
      rwa [List.take_append_drop] at this
    have hcall : m.insert self ⟨self, l.nodeAt i⟩ val
        = some (({ m with next := m.next + 1 } : Memory T).put self
            ⟨l.lst.take i ++ (m.next, val) :: l.lst.drop i,
              Function.update l.umap val (some ⟨self, some m.next⟩)⟩, ⟨self, some m.next⟩) := by
      simp [insert, hl, hval, h.indexOf_nodeAt hi]
    refine ⟨_, _, _, hcall, ⟨rfl, Nat.le_succ _, h.add hval hperm⟩, ?_, Function.update_self _ _ _,
      fun hmem ↦ absurd hmem hnot⟩
    rw [OrderedSet.elems_insert_of_notMem (s := h.set) hnot]
    simp [HashList.values, Coupled.set, List.map_take, List.map_drop]

/-- `push_back` inserts before `end()`. -/
theorem pushBack_spec (val : T) (hl : m.objects self = some l) (h : l.Coupled self m.next) :
    ∃ m' l' position, m.pushBack self val = some (m', position) ∧ m.Becomes m' self l' ∧
      l'.values = (h.set.pushBack val).elems ∧ l'.umap val = some position ∧
      (val ∈ l.values → m' = m) := by
  have hend : l.nodeAt l.lst.length = none := by simp [nodeAt, HashList.nodes]
  have hinsert : m.pushBack self val = m.insert self ⟨self, l.nodeAt l.lst.length⟩ val := by
    simp [pushBack, insert, hl, hend, indexOf]
  rw [hinsert, OrderedSet.pushBack, h.length_set]
  exact insert_spec val hl h (Nat.le_refl _)

theorem popBack_spec (hl : m.objects self = some l) (h : l.Coupled self m.next) :
    ∃ m' l', m.popBack self = some m' ∧ m.Becomes m' self l' ∧
      l'.values = h.set.popBack.elems := by
  cases hback : l.lst.getLast? with
  | none =>
    have hnil : l.lst = [] := List.getLast?_eq_none_iff.mp hback
    refine ⟨m, l, by simp [popBack, hl, hback], becomes_self hl h, ?_⟩
    rw [OrderedSet.popBack_of_nil (s := h.set) (by simp [Coupled.set, HashList.values, hnil])]
    rfl
  | some back =>
    have hlst : l.lst.Perm (back :: l.lst.dropLast) := by
      have := List.dropLast_append_getLast? back hback
      conv => lhs; rw [← this]
      exact List.perm_append_singleton back l.lst.dropLast
    have hcall : m.popBack self
        = some (m.put self ⟨l.lst.dropLast, Function.update l.umap back.2 none⟩) := by
      simp [popBack, hl, hback]
    exact ⟨_, _, hcall, ⟨rfl, Nat.le_refl _, h.remove hlst⟩, List.map_dropLast ..⟩

/-- `erase`: the map finds the node, which is one of the own list. -/
theorem erase_spec (val : T) (hl : m.objects self = some l) (h : l.Coupled self m.next) :
    ∃ m' l', m.erase self val = some m' ∧ m.Becomes m' self l' ∧
      l'.values = (h.set.erase val).elems := by
  cases hval : l.umap val with
  | none =>
    refine ⟨m, l, by simp [erase, hl, hval], becomes_self hl h, ?_⟩
    rw [OrderedSet.erase_of_notMem (s := h.set) (h.notMem_values hval)]
    rfl
  | some position =>
    obtain ⟨n, i, rfl, hindex, hi⟩ := h.indexOf_umap hval
    have hperm := Coupled.perm_eraseIdx hi
    have hcall : m.erase self val = some ((m.put self { l with lst := l.lst.eraseIdx i }).put self
        ⟨l.lst.eraseIdx i, Function.update l.umap val none⟩) := by
      simp [erase, listErase, hl, hval, hindex, put]
    refine ⟨_, _, hcall, ⟨by simp [put], Nat.le_refl _, h.remove hperm⟩, ?_⟩
    have hi' : h.set.elems[i]? = some val := by
      simp [Coupled.set, HashList.values, hi]
    rw [OrderedSet.elems_erase_getElem hi']
    exact (List.eraseIdx_map ..).symm

/-- **Every operation does to a `HashList` what it does to an ordered set.**  What is added is where
the iterator points that is returned; adding what is there already changes nothing at all. -/
theorem call_spec {op : OrderedSet.Op T} {set : OrderedSet T} (hl : m.objects self = some l)
    (h : l.Coupled self m.next) (hop : h.set.step op = some set) : ∃ m' l' ret,
      m.call self op = some (m', ret) ∧ m.Becomes m' self l' ∧ l'.values = set.elems ∧
        ∀ val, op.added = some val → ret = l'.umap val ∧ (val ∈ l.values → m' = m) := by
  cases op with
  | pushBack val =>
    obtain rfl := Option.some.inj hop
    obtain ⟨m', l', position, hcall, hm', hvalues, hret, hold⟩ := pushBack_spec val hl h
    refine ⟨m', l', some position, by simp [call, hcall], hm', hvalues, ?_⟩
    rintro v hv
    obtain rfl := Option.some.inj hv
    exact ⟨hret.symm, hold⟩
  | insert i val =>
    rw [OrderedSet.step, h.length_set, Option.ite_none_right_eq_some, Option.some.injEq] at hop
    obtain ⟨hi, rfl⟩ := hop
    obtain ⟨m', l', position, hcall, hm', hvalues, hret, hold⟩ := insert_spec val hl h hi
    refine ⟨m', l', some position, by simp [call, hl, hi, hcall], hm', hvalues, ?_⟩
    rintro v hv
    obtain rfl := Option.some.inj hv
    exact ⟨hret.symm, hold⟩
  | erase val =>
    obtain rfl := Option.some.inj hop
    obtain ⟨m', l', hcall, hm', hvalues⟩ := erase_spec val hl h
    exact ⟨m', l', none, by simp [call, hcall], hm', hvalues, by simp [OrderedSet.Op.added]⟩
  | popBack =>
    obtain rfl := Option.some.inj hop
    obtain ⟨m', l', hcall, hm', hvalues⟩ := popBack_spec hl h
    exact ⟨m', l', none, by simp [call, hcall], hm', hvalues, by simp [OrderedSet.Op.added]⟩
  | clear =>
    obtain rfl := Option.some.inj hop
    obtain ⟨m', l', hcall, hm', hvalues⟩ := clear_spec hl
    exact ⟨m', l', none, by simp [call, hcall], hm', hvalues, by simp [OrderedSet.Op.added]⟩

/-! ## Runs -/

/-- The loop of the range constructor. -/
theorem pushAll_spec (vals : List T) (hl : m.objects self = some l) (h : l.Coupled self m.next) :
    ∃ m' l', vals.foldlM (fun m val ↦ (m.pushBack self val).map Prod.fst) m = some m' ∧
      m.Becomes m' self l' ∧ l'.values = (vals.foldl OrderedSet.pushBack h.set).elems := by
  induction vals generalizing m l with
  | nil => exact ⟨m, l, rfl, becomes_self hl h, rfl⟩
  | cons val vals ih =>
    obtain ⟨m₁, l₁, position, hcall, hm₁, hvalues, -⟩ := pushBack_spec val hl h
    obtain ⟨m', l', hrun, hm', hvalues'⟩ := ih hm₁.object hm₁.coupled
    have hset : hm₁.coupled.set = h.set.pushBack val := OrderedSet.ext hvalues
    refine ⟨m', l', ?_, hm₁.trans hm', by rw [hvalues', hset, List.foldl_cons]⟩
    rw [List.foldlM_cons, hcall]
    exact hrun

theorem construct_spec (hself : m.objects self = none) (vals : List T) :
    ∃ m' l', m.construct self vals = some m' ∧ m.Becomes m' self l' ∧
      l'.values = (OrderedSet.ofList vals).elems := by
  have hempty : m.Becomes (m.put self .empty) self .empty := ⟨rfl, Nat.le_refl _, coupled_empty⟩
  obtain ⟨m', l', hrun, hm', hvalues⟩ := pushAll_spec vals hempty.object hempty.coupled
  exact ⟨m', l', by rw [construct, if_pos hself, hrun], hempty.trans hm', hvalues⟩

theorem calls_spec {ops : List (OrderedSet.Op T)} {set : OrderedSet T}
    (hl : m.objects self = some l) (h : l.Coupled self m.next)
    (hops : Steps.steps OrderedSet.step h.set ops = some set) :
    ∃ m' l', Steps.steps step m (ops.map (.call self)) = some m' ∧ m.Becomes m' self l' ∧
      l'.values = set.elems := by
  induction ops generalizing m l with
  | nil =>
    obtain rfl : h.set = set := Option.some.inj hops
    exact ⟨m, l, rfl, becomes_self hl h, rfl⟩
  | cons op ops ih =>
    obtain ⟨set₁, hop, hops⟩ := Steps.steps_cons_iff.mp hops
    obtain ⟨m₁, l₁, ret, hcall, hm₁, hvalues, -⟩ := call_spec hl h hop
    obtain rfl : hm₁.coupled.set = set₁ := OrderedSet.ext hvalues
    obtain ⟨m', l', hrun, hm', hvalues'⟩ := ih hm₁.object hm₁.coupled hops
    refine ⟨m', l', ?_, hm₁.trans hm', hvalues'⟩
    rw [List.map_cons, Steps.steps_cons, step, hcall]
    exact hrun

/-- **A `HashList` is an ordered set**, through every sequence of operations: it has the same
elements in the same order, its map says where each of them is, and the next operation does to it
what it does to the set. -/
theorem hashList_refines (m : Memory T) (self : ℕ) (vals : List T) (ops : List (OrderedSet.Op T))
    (set : OrderedSet T) (hself : m.objects self = none)
    (hops : Steps.steps OrderedSet.step (.ofList vals) ops = some set) :
    ∃ m₁ m₂ l, m.construct self vals = some m₁ ∧
      Steps.steps step m₁ (ops.map (.call self)) = some m₂ ∧ m₂.IsSet self set l ∧
      ∀ op set', set.step op = some set' → ∃ m₃ l' ret, m₂.call self op = some (m₃, ret) ∧
        m₃.IsSet self set' l' ∧
        ∀ val, op.added = some val → ret = l'.umap val ∧ (val ∈ l.values → m₃ = m₂) := by
  obtain ⟨m₁, l₁, hconstruct, hm₁, hvalues₁⟩ := construct_spec hself vals
  rw [← (hm₁.isSet hvalues₁).set_eq] at hops
  obtain ⟨m₂, l, hrun, hm₂, hvalues₂⟩ := calls_spec hm₁.object hm₁.coupled hops
  refine ⟨m₁, m₂, l, hconstruct, hrun, hm₂.isSet hvalues₂, fun op set' hop ↦ ?_⟩
  rw [← (hm₂.isSet hvalues₂).set_eq] at hop
  obtain ⟨m₃, l', ret, hcall, hm₃, hvalues₃, hret⟩ := call_spec hm₂.object hm₂.coupled hop
  exact ⟨m₃, l', ret, hcall, hm₃.isSet hvalues₃, hret⟩

theorem hashList_refines_small :
    ∃ m₁ m₂ l, (init : Memory ℕ).construct 0 [2, 5, 2] = some m₁ ∧
      Steps.steps step m₁ ([.pushBack 3, .insert 1 3, .insert 1 7, .erase 5, .popBack].map
        (.call 0)) = some m₂ ∧ m₂.IsSet 0 ⟨[2, 7], by decide⟩ l ∧
      ∀ op set', (⟨[2, 7], by decide⟩ : OrderedSet ℕ).step op = some set' →
        ∃ m₃ l' ret, m₂.call 0 op = some (m₃, ret) ∧ m₃.IsSet 0 set' l' ∧
          ∀ val, op.added = some val → ret = l'.umap val ∧ (val ∈ l.values → m₃ = m₂) :=
  hashList_refines .init 0 [2, 5, 2] _ ⟨[2, 7], by decide⟩ rfl rfl

end Memory
end Estd
end Cppkg
