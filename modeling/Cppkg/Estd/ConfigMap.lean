import Cppkg.Estd.ConfigEntry

/-!
# `estd/config.hpp`: `ConfigMap`

A `ConfigMap` maps keys to entries, each of which owns an object.  Copies of a map share its
entries, and go their own ways from there: `std::shared_ptr` destroys an entry when the last map
that has it drops it.

`Lawful` is what holds of all maps together, and `lawful_run` that it does whatever is done to them:
every object is deleted exactly once, when the last map drops its entry, and no map gives out an
object that was deleted.
-/

set_option autoImplicit false

namespace Cppkg
namespace Estd

variable {K D : Type}

/-- A `ConfigMap`: the nodes of `entries_`, in the order in which it goes through them.  A node has
a key, and the number of the entry that it shares. -/
structure ConfigMap (K : Type) where
  entries : List (K × ℕ)
  deriving DecidableEq, Repr

namespace ConfigMap

/-- `has_key(cfg_key)` -/
def hasKey [DecidableEq K] (m : ConfigMap K) (cfgKey : K) : Bool := (m.entries.lookup cfgKey).isSome

/-- `get_keys()` -/
def getKeys (m : ConfigMap K) : List K := m.entries.map Prod.fst

/-- The entries that the map shares. -/
def shares (m : ConfigMap K) : List ℕ := m.entries.map Prod.snd

end ConfigMap

/-- All maps, and the entries that they share.  Maps and entries are numbered in the order of their
construction.  An entry is made with an object that `init` returned for it. -/
structure ConfigMaps (K D : Type) where
  /-- The maps, unless they were destroyed. -/
  maps : List (Option (ConfigMap K))
  /-- All entries there ever were. -/
  entries : List (ConfigEntry D)
  /-- The entries that were destroyed, in order. -/
  destroyed : List ℕ

namespace ConfigMaps

/-! ## The operations -/

/-- Nothing was ever constructed. -/
def init : ConfigMaps K D := ⟨[], [], []⟩

variable (w : ConfigMaps K D) (i j : ℕ)

/-- The map with number `i`, unless it was destroyed. -/
def map : Option (ConfigMap K) := (w.maps[i]?).join

/-- Some map shares entry `p`. -/
def holds (p : ℕ) : Bool :=
  w.maps.any fun o ↦ match o with
    | some m => m.shares.contains p
    | none => false

/-- Put a map, or nothing, in the place of map `i`. -/
def put (o : Option (ConfigMap K)) : ConfigMaps K D := { w with maps := w.maps.set i o }

/-- Destroy pointers to the entries `ps`, one after the other: an entry goes when neither a map nor
one of the pointers that are left shares it. -/
def release : List ℕ → ConfigMaps K D → ConfigMaps K D
  | [], w => w
  | p :: ps, w =>
    release ps (if w.holds p = true ∨ p ∈ ps then w else { w with destroyed := w.destroyed ++ [p] })

/-- The calls of functions that delete an object, in order: what the destructors of the entries
call. -/
def deletions : List (D × ℕ) :=
  w.destroyed.flatMap fun p ↦ match w.entries[p]? with
    | some e => e.deletes.toList
    | none => []

/-- `get_obj(cfg_key)`: the object, or no object. -/
def getObj [DecidableEq K] (m : ConfigMap K) (cfgKey : K) : Option ℕ :=
  if m.hasKey cfgKey = true then
    match m.entries.lookup cfgKey with
    | some p => (w.entries[p]?).map ConfigEntry.data
    | none => none
  else none

/-- `ConfigMap i;` -/
def construct : ConfigMaps K D := { w with maps := w.maps ++ [some ⟨[]⟩] }

/-- A copy of map `i`. -/
def copyConstruct : Option (ConfigMaps K D) :=
  match w.map i with
  | some other => some { w with maps := w.maps ++ [some other] }
  | none => none

/-- `i = j;` -/
def copyAssign : Option (ConfigMaps K D) :=
  match w.map i, w.map j with
  | some this, some other =>
    if i = j then some w else some (release this.shares (w.put i (some other)))
  | _, _ => none

/-- The end of `i`. -/
def destroy : Option (ConfigMaps K D) :=
  match w.map i with
  | some this => some (release this.shares (w.put i none))
  | none => none

/-- `i.add_entry(cfg_key, init, del);` where `del` may be empty.  An object stands for one call of
`init`: what `init` returns is taken to be new each time. -/
def addEntry [DecidableEq K] (cfgKey : K) (del : Option D) : Option (ConfigMaps K D) :=
  match w.map i with
  | some this =>
    if this.hasKey cfgKey = false then
      -- `init` is called, and its object goes to a new entry
      let p := w.entries.length
      some { w.put i (some ⟨this.entries ++ [(cfgKey, p)]⟩) with
        entries := w.entries ++ [⟨p, del⟩] }
    else some w
  | none => none

/-- `i.rm_entry(cfg_key);` -/
def rmEntry [DecidableEq K] (cfgKey : K) : Option (ConfigMaps K D) :=
  match w.map i with
  | some this =>
    match this.entries.lookup cfgKey with
    | some p => some (release [p] (w.put i (some ⟨this.entries.eraseP (·.1 == cfgKey)⟩)))
    | none => some w
  | none => none

/-- An operation on the maps. -/
inductive Op (K D : Type)
  | construct
  | copyConstruct (i : ℕ)
  | copyAssign (i j : ℕ)
  | destroy (i : ℕ)
  | addEntry (i : ℕ) (cfgKey : K) (del : Option D)
  | rmEntry (i : ℕ) (cfgKey : K)
  deriving DecidableEq, Repr

/-- Do an operation, if there are such maps. -/
def step [DecidableEq K] (w : ConfigMaps K D) : Op K D → Option (ConfigMaps K D)
  | .construct => some w.construct
  | .copyConstruct i => w.copyConstruct i
  | .copyAssign i j => w.copyAssign i j
  | .destroy i => w.destroy i
  | .addEntry i cfgKey del => w.addEntry i cfgKey del
  | .rmEntry i cfgKey => w.rmEntry i cfgKey

/-- Where a sequence of operations ends. -/
def run [DecidableEq K] (ops : List (Op K D)) : Option (ConfigMaps K D) := Steps.steps step init ops

/-! ## Who shares what -/

variable {w i j} {w' : ConfigMaps K D} {ops : List (Op K D)} {op : Op K D} {m : ConfigMap K}
variable {p : ℕ} {k : K} {o : Option (ConfigMap K)}

theorem map_eq_some : w.map i = some m ↔ w.maps[i]? = some (some m) := by
  rw [map, Option.join_eq_some_iff]

theorem holds_iff : w.holds p = true ↔ ∃ i m, w.map i = some m ∧ p ∈ m.shares := by
  simp only [holds, List.any_eq_true, map_eq_some]
  constructor
  · rintro ⟨o, hmem, ho⟩
    obtain ⟨i, hi⟩ := List.mem_iff_getElem?.mp hmem
    cases o with
    | some m => exact ⟨i, m, hi, by simpa using ho⟩
    | none => cases ho
  · rintro ⟨i, m, hi, hm⟩
    exact ⟨some m, List.mem_of_getElem? hi, by simpa using hm⟩

theorem map_put (hi : w.map i = some m) (o : Option (ConfigMap K)) :
    (w.put i o).map = Function.update w.map i o := by
  have hlt := (List.getElem?_eq_some_iff.mp (map_eq_some.mp hi)).1
  funext j
  rw [Function.update_apply]
  by_cases h : j = i
  · subst h
    rw [if_pos rfl, map, put, List.getElem?_set_self hlt, Option.join_some]
  · rw [if_neg h, map, put, List.getElem?_set_ne (Ne.symm h)]
    rfl

theorem map_append (m : ConfigMap K) :
    ({ w with maps := w.maps ++ [some m] } : ConfigMaps K D).map =
      Function.update w.map w.maps.length (some m) := by
  funext j
  rw [Function.update_apply]
  rcases Nat.lt_trichotomy j w.maps.length with h | rfl | h
  · rw [if_neg (Nat.ne_of_lt h), map, List.getElem?_append_left h]
    rfl
  · simp [map]
  · rw [if_neg (Nat.ne_of_gt h), map, map, List.getElem?_eq_none (by simp; omega),
      List.getElem?_eq_none (Nat.le_of_lt h)]

/-- What is shared after map `i` was replaced. -/
theorem holds_update (h : w'.map = Function.update w.map i o) :
    w'.holds p = true ↔ (∃ m, o = some m ∧ p ∈ m.shares) ∨
      ∃ j m, j ≠ i ∧ w.map j = some m ∧ p ∈ m.shares := by
  rw [holds_iff, h]
  constructor
  · rintro ⟨j, m, hj, hm⟩
    rw [Function.update_apply] at hj
    split at hj
    · exact .inl ⟨m, hj, hm⟩
    · rename_i hji
      exact .inr ⟨j, m, hji, hj, hm⟩
  · rintro (⟨m, rfl, hm⟩ | ⟨j, m, hji, hj, hm⟩)
    · exact ⟨i, m, Function.update_self .., hm⟩
    · exact ⟨j, m, by rw [Function.update_of_ne hji]; exact hj, hm⟩

/-- Of different entries, those are destroyed that no map shares. -/
theorem release_eq {ps : List ℕ} (hps : ps.Nodup) :
    release ps w = { w with destroyed := w.destroyed ++ ps.filter fun p ↦ !w.holds p } := by
  induction ps generalizing w with
  | nil => simp [release]
  | cons p ps ih =>
    obtain ⟨hp, hps⟩ := List.nodup_cons.mp hps
    rw [release, ih hps]
    by_cases hw : w.holds p = true
    · simp [hw]
    · have hsame : ∀ q, ({ w with destroyed := w.destroyed ++ [p] } : ConfigMaps K D).holds q =
          w.holds q := fun _ ↦ rfl
      simp [hw, hp, hsame, List.append_assoc]

/-! ## The maps and the books of their entries -/

/-- The entries that the maps have in custody. -/
def books (w : ConfigMaps K D) : Books ℕ where
  given := {p | p < w.entries.length}
  held := {p | w.holds p = true}
  released := w.destroyed

/-- What holds of the maps after any operations. -/
structure Sound (w : ConfigMaps K D) : Prop where
  keys : ∀ i m, w.map i = some m → m.getKeys.Nodup
  shares : ∀ i m, w.map i = some m → m.shares.Nodup
  /-- An entry and its object have the same number. -/
  data : ∀ (p : ℕ) (e : ConfigEntry D), w.entries[p]? = some e → e.data = p
  honest : w.books.Honest
  lost : w.books.lost = ∅

theorem sound_init : (init : ConfigMaps K D).Sound where
  keys i m h := by simp [map, init] at h
  shares i m h := by simp [map, init] at h
  data p e h := by simp [init] at h
  honest := by constructor <;> simp [books, init, holds]
  lost := by
    ext p
    simp [Books.lost, books, init]

/-- A map is replaced by another, or by none, and the pointers `ps` are destroyed. -/
theorem Sound.replace {ps : List ℕ} (hs : w.Sound) (hmap : w'.map = Function.update w.map i o)
    (hentries : w'.entries = w.entries) (hdestroyed : w'.destroyed = w.destroyed)
    (ho : ∀ m, o = some m → m.getKeys.Nodup ∧ m.shares.Nodup ∧ ∀ p ∈ m.shares, w.holds p = true)
    (hps : ps.Nodup) (hps' : ∀ p ∈ ps, w.holds p = true)
    (hkept : ∀ m, w.map i = some m → ∀ p ∈ m.shares, w'.holds p = true ∨ p ∈ ps) :
    (release ps w').Sound := by
  have hheld : ∀ p, w'.holds p = true → w.holds p = true := by
    intro p hp
    rcases (holds_update hmap).mp hp with ⟨m, hm, hpm⟩ | ⟨j, m, -, hj, hpm⟩
    · exact (ho m hm).2.2 p hpm
    · exact holds_iff.mpr ⟨j, m, hj, hpm⟩
  have hdropped : ∀ p, w.holds p = true → w'.holds p = true ∨ p ∈ ps := by
    intro p hp
    obtain ⟨j, m, hj, hpm⟩ := holds_iff.mp hp
    by_cases hji : j = i
    · exact hkept m (hji ▸ hj) p hpm
    · exact .inl ((holds_update hmap).mpr (.inr ⟨j, m, hji, hj, hpm⟩))
  have hmaps : ∀ j m, w'.map j = some m → m.getKeys.Nodup ∧ m.shares.Nodup := by
    intro j m hj
    rw [hmap, Function.update_apply] at hj
    split at hj
    · exact ⟨(ho m hj).1, (ho m hj).2.1⟩
    · exact ⟨hs.keys j m hj, hs.shares j m hj⟩
  rw [release_eq hps]
  have hentry : Books.Entry w.books
      (books { w' with destroyed := w'.destroyed ++ ps.filter fun p ↦ !w'.holds p })
      (ps.filter fun p ↦ !w'.holds p) := by
    refine ⟨congrArg (· ++ _) hdestroyed, fun p hp ↦ ?_, fun p hp ↦ .inl (hheld p hp),
      hps.filter _, fun p hp ↦ ?_⟩
    · show p < w'.entries.length
      rw [hentries]
      exact hp
    · obtain ⟨hp, hnot⟩ := List.mem_filter.mp hp
      have hnot' : ¬ w'.holds p = true := by simpa using hnot
      exact ⟨.inl (hps' p hp), hnot'⟩
  refine ⟨fun j m hj ↦ (hmaps j m hj).1, fun j m hj ↦ (hmaps j m hj).2, ?_,
    hs.honest.entry hentry, ?_⟩
  · show ∀ (p : ℕ) (e : ConfigEntry D), w'.entries[p]? = some e → e.data = p
    rw [hentries]
    exact hs.data
  · rw [hs.honest.lost_entry_eq hentry, hs.lost]
    rintro p ⟨hp | hp, hnot⟩
    · have hp' : ¬ w'.holds p = true := hnot
      exact List.mem_filter.mpr ⟨(hdropped p hp).resolve_left hp', by simpa using hp'⟩
    · have hlt : p < w'.entries.length := hp.1
      rw [hentries] at hlt
      exact absurd hlt hp.2

/-- What the maps have when one of them gets a new entry. -/
theorem holds_add {n : ℕ} (hmap : w'.map = Function.update w.map i (some ⟨m.entries ++ [(k, n)]⟩))
    (hi : w.map i = some m) : w'.holds p = true ↔ w.holds p = true ∨ p = n := by
  rw [holds_update hmap, holds_iff]
  constructor
  · rintro (⟨m', hm', hp⟩ | ⟨j, m', -, hj, hp⟩)
    · obtain rfl := Option.some.inj hm'
      rw [ConfigMap.shares, List.map_append, List.mem_append] at hp
      exact hp.imp (fun h ↦ ⟨i, m, hi, h⟩) (by simp)
    · exact .inl ⟨j, m', hj, hp⟩
  · rintro (⟨j, m', hj, hp⟩ | rfl)
    · by_cases hji : j = i
      · obtain rfl : m = m' := Option.some.inj (hi.symm.trans (hji ▸ hj))
        exact .inl ⟨_, rfl, by simp [ConfigMap.shares] at hp ⊢; exact .inl hp⟩
      · exact .inr ⟨j, m', hji, hj, hp⟩
    · exact .inl ⟨_, rfl, by simp [ConfigMap.shares]⟩

/-- A new entry goes to one map. -/
theorem Sound.add {e : ConfigEntry D} (hs : w.Sound)
    (hmap : w'.map = Function.update w.map i (some ⟨m.entries ++ [(k, w.entries.length)]⟩))
    (hentries : w'.entries = w.entries ++ [e]) (hdestroyed : w'.destroyed = w.destroyed)
    (he : e.data = w.entries.length) (hi : w.map i = some m) (hk : k ∉ m.getKeys) : w'.Sound := by
  have hbound : ∀ p, w.holds p = true → p < w.entries.length := hs.honest.held_given
  have hshares : ∀ p ∈ m.shares, w.holds p = true := fun p hp ↦ holds_iff.mpr ⟨i, m, hi, hp⟩
  have hold := fun p ↦ holds_add (p := p) hmap hi
  have hlen : w'.entries.length = w.entries.length + 1 := by simp [hentries]
  have hentry : Books.Entry w.books w'.books [] := by
    refine ⟨by simp [books, hdestroyed], fun p (hp : p < _) ↦ ?_, fun p hp ↦ ?_, List.nodup_nil,
      by simp⟩
    · show p < w'.entries.length
      omega
    · rcases (hold p).mp hp with h | rfl
      · exact .inl h
      · refine .inr ⟨?_, Nat.lt_irrefl _⟩
        show w.entries.length < w'.entries.length
        omega
  refine ⟨fun j m' hj ↦ ?_, fun j m' hj ↦ ?_, fun p e' hp ↦ ?_, hs.honest.entry hentry, ?_⟩
  · rw [hmap, Function.update_apply] at hj
    split at hj
    · obtain rfl := Option.some.inj hj
      rw [ConfigMap.getKeys, List.map_append, List.map_singleton, ← List.concat_eq_append]
      exact (hs.keys i m hi).concat hk
    · exact hs.keys j m' hj
  · rw [hmap, Function.update_apply] at hj
    split at hj
    · obtain rfl := Option.some.inj hj
      rw [ConfigMap.shares, List.map_append, List.map_singleton, ← List.concat_eq_append]
      refine (hs.shares i m hi).concat fun hp ↦ ?_
      exact Nat.lt_irrefl _ (hbound _ (hshares _ hp))
    · exact hs.shares j m' hj
  · rw [hentries] at hp
    rcases Nat.lt_or_ge p w.entries.length with h | h
    · rw [List.getElem?_append_left h] at hp
      exact hs.data p e' hp
    · rw [List.getElem?_append_right h] at hp
      obtain ⟨hp0, rfl⟩ : p - w.entries.length = 0 ∧ e = e' := by
        cases hq : p - w.entries.length <;> simp_all
      omega
  · rw [hs.honest.lost_entry_eq hentry, hs.lost]
    rintro p ⟨hp | ⟨hp, hnew⟩, hnot⟩
    · exact absurd ((hold p).mpr (.inl hp)) hnot
    · have h1 : p < w'.entries.length := hp
      have h2 : ¬ p < w.entries.length := hnew
      exact absurd ((hold p).mpr (.inr (by omega))) hnot

/-! ## Runs -/

theorem hasKey_iff [DecidableEq K] : m.hasKey k = true ↔ k ∈ m.getKeys := by
  simp [ConfigMap.hasKey, ConfigMap.getKeys, List.lookup_isSome_iff]

theorem mem_of_lookup [DecidableEq K] (h : m.entries.lookup k = some p) : (k, p) ∈ m.entries := by
  obtain ⟨l₁, l₂, hl, -⟩ := List.lookup_eq_some_iff.mp h
  simp [hl]

theorem mem_shares_of_lookup [DecidableEq K] (h : m.entries.lookup k = some p) : p ∈ m.shares :=
  List.mem_map.mpr ⟨(k, p), mem_of_lookup h, rfl⟩

/-- What a map shares when a key is removed: the node that goes is the only one with the key. -/
theorem shares_eraseP [DecidableEq K] (hkeys : m.getKeys.Nodup) (h : m.entries.lookup k = some p)
    {q : ℕ} (hq : q ∈ m.shares) :
    q ∈ (⟨m.entries.eraseP (·.1 == k)⟩ : ConfigMap K).shares ∨ q = p := by
  obtain ⟨⟨k', q'⟩, hmem, rfl⟩ := List.mem_map.mp hq
  by_cases hk : k' = k
  · subst hk
    have heq := List.inj_on_of_nodup_map hkeys hmem (mem_of_lookup h) rfl
    exact .inr (congrArg Prod.snd heq)
  · refine .inl (List.mem_map.mpr ⟨(k', q'), ?_, rfl⟩)
    exact (List.mem_eraseP_of_neg (by simpa using hk)).mpr hmem

/-- What a map shares is there. -/
theorem Sound.shared (hs : w.Sound) (hi : w.map i = some m) :
    m.getKeys.Nodup ∧ m.shares.Nodup ∧ ∀ p ∈ m.shares, w.holds p = true :=
  ⟨hs.keys i m hi, hs.shares i m hi, fun _ hp ↦ holds_iff.mpr ⟨i, m, hi, hp⟩⟩

/-- There is one more map, which shares what is there. -/
theorem Sound.append (hs : w.Sound) (hkeys : m.getKeys.Nodup) (hshares : m.shares.Nodup)
    (hheld : ∀ p ∈ m.shares, w.holds p = true) :
    Sound { w with maps := w.maps ++ [some m] } := by
  refine hs.replace (map_append _) rfl rfl (fun m' hm ↦ ?_) List.nodup_nil (by simp)
    (fun m' hm ↦ ?_)
  · obtain rfl := Option.some.inj hm
    exact ⟨hkeys, hshares, hheld⟩
  · simp [map] at hm

/-- A map gives up all it shared, and another, or none, takes its place. -/
theorem Sound.letGo (hs : w.Sound) (hi : w.map i = some m) (ho : ∀ m', o = some m' →
      m'.getKeys.Nodup ∧ m'.shares.Nodup ∧ ∀ p ∈ m'.shares, w.holds p = true) :
    (release m.shares (w.put i o)).Sound := by
  obtain ⟨-, hshares, hheld⟩ := hs.shared hi
  refine hs.replace (map_put hi o) rfl rfl ho hshares hheld fun m' hm p hp ↦ ?_
  obtain rfl := Option.some.inj (hi.symm.trans hm)
  exact .inr hp

/-- **Every operation keeps the law of custody.** -/
theorem sound_step [DecidableEq K] (h : w.step op = some w') (hs : w.Sound) : w'.Sound := by
  cases op with
  | construct =>
    obtain rfl := Option.some.inj h
    exact hs.append List.nodup_nil List.nodup_nil (by simp [ConfigMap.shares])
  | copyConstruct i =>
    simp only [step, copyConstruct] at h
    split at h
    · rename_i other hi
      obtain rfl := Option.some.inj h
      obtain ⟨hkeys, hshares, hheld⟩ := hs.shared hi
      exact hs.append hkeys hshares hheld
    · cases h
  | copyAssign i j =>
    simp only [step, copyAssign] at h
    split at h
    · rename_i this other hi hj
      split at h <;> obtain rfl := Option.some.inj h
      · exact hs
      refine hs.letGo hi fun m hm ↦ ?_
      obtain rfl := Option.some.inj hm
      exact hs.shared hj
    · cases h
  | destroy i =>
    simp only [step, destroy] at h
    split at h
    · rename_i this hi
      obtain rfl := Option.some.inj h
      exact hs.letGo hi fun m hm ↦ by cases hm
    · cases h
  | addEntry i k del =>
    simp only [step, addEntry] at h
    split at h
    · rename_i this hi
      split at h <;> (rename_i hk; obtain rfl := Option.some.inj h)
      · refine hs.add (map_put hi _) rfl rfl rfl hi fun hmem ↦ ?_
        rw [hasKey_iff.mpr hmem] at hk
        cases hk
      · exact hs
    · cases h
  | rmEntry i k =>
    simp only [step, rmEntry] at h
    split at h
    · rename_i this hi
      split at h
      · rename_i p hp
        obtain rfl := Option.some.inj h
        obtain ⟨hkeys, hshares, hheld⟩ := hs.shared hi
        have hput := map_put hi (some ⟨this.entries.eraseP (·.1 == k)⟩)
        have hsub : (this.entries.eraseP (·.1 == k)).Sublist this.entries := List.eraseP_sublist
        refine hs.replace hput rfl rfl (fun m hm ↦ ?_) (List.nodup_singleton p)
          (fun q hq ↦ ?_) (fun m hm q hq ↦ ?_)
        · obtain rfl := Option.some.inj hm
          exact ⟨hkeys.sublist (hsub.map _), hshares.sublist (hsub.map _),
            fun q hq ↦ hheld q ((hsub.map _).subset hq)⟩
        · obtain rfl := List.mem_singleton.mp hq
          exact hheld q (mem_shares_of_lookup hp)
        · obtain rfl := Option.some.inj (hi.symm.trans hm)
          refine (shares_eraseP hkeys hp hq).imp (fun hq ↦ ?_) List.mem_singleton.mpr
          exact (holds_update hput).mpr (.inl ⟨_, rfl, hq⟩)
      · obtain rfl := Option.some.inj h
        exact hs
    · cases h

theorem sound_run [DecidableEq K] (h : run ops = some w) : w.Sound :=
  Steps.steps_inv_all (fun _ _ _ ↦ sound_step) h sound_init

/-- What the destructor of entry `p` calls. -/
theorem mem_deletions {t : D × ℕ} : t ∈ w.deletions ↔
    ∃ p ∈ w.destroyed, ∃ e, w.entries[p]? = some e ∧ e.deletes = some t := by
  rw [deletions, List.mem_flatMap]
  refine exists_congr fun p ↦ and_congr_right fun _ ↦ ?_
  split <;> rename_i h <;> simp [h]

/-- An object is deleted as often as its entry is destroyed. -/
theorem Sound.count_deletions [DecidableEq D] (hs : w.Sound) {e : ConfigEntry D} {del : D}
    (he : w.entries[p]? = some e) (hdel : e.deletion = some del) :
    w.deletions.count (del, e.data) = w.destroyed.count p := by
  rw [deletions]
  induction w.destroyed with
  | nil => rfl
  | cons q qs ih =>
    rw [List.flatMap_cons, List.count_append, ih, List.count_cons, Nat.add_comm]
    congr 1
    by_cases hqp : q = p
    · subst hqp
      simp [he, ConfigEntry.deletes_eq, hdel]
    · -- another entry has another object
      rw [if_neg (by simpa using hqp), List.count_eq_zero]
      intro hmem
      split at hmem
      · rename_i e' he'
        rw [ConfigEntry.deletes_eq, Option.mem_toList, Option.map_eq_some_iff] at hmem
        obtain ⟨del', -, heq⟩ := hmem
        have hdata := congrArg Prod.snd heq
        rw [hs.data q e' he', hs.data p e he] at hdata
        exact hqp hdata
      · cases hmem

/-- What holds of all maps, their entries and the objects of these. -/
structure Lawful [DecidableEq K] [DecidableEq D] (w : ConfigMaps K D) : Prop where
  /-- An object is deleted once, when no map has its entry, and not before. -/
  deleted : ∀ p e del, w.entries[p]? = some e → e.deletion = some del →
    w.deletions.count (del, e.data) = if w.holds p = true then 0 else 1
  /-- The operation that deletes it is the one by which the last map drops its entry. -/
  deleted_last : ∀ op w' p e del, w.step op = some w' → w.entries[p]? = some e →
    e.deletion = some del → ((del, e.data) ∉ w.deletions ∧ (del, e.data) ∈ w'.deletions ↔
      w.holds p = true ∧ w'.holds p = false)
  /-- A key is listed once if the map has it, and not at all otherwise. -/
  listed : ∀ i m k, w.map i = some m → m.getKeys.count k = if m.hasKey k = true then 1 else 0
  /-- A map has the keys that it has an entry for. -/
  hasKey : ∀ i m k, w.map i = some m →
    (m.hasKey k = true ↔ ∃ p e, (k, p) ∈ m.entries ∧ w.entries[p]? = some e)
  /-- There is an object for the keys that the map has, … -/
  getObj : ∀ i m k, w.map i = some m → ((w.getObj m k).isSome = true ↔ m.hasKey k = true)
  /-- … and it was not deleted. -/
  not_deleted : ∀ i m k object, w.map i = some m → w.getObj m k = some object →
    ∀ del, (del, object) ∉ w.deletions
  /-- A key that the map has is not added again, and no object is made for it. -/
  present : ∀ i m k del, w.map i = some m → m.hasKey k = true →
    w.step (.addEntry i k del) = some w

/-- The entries that a map shares exist. -/
theorem Sound.entry_of_mem (hs : w.Sound) (hi : w.map i = some m) (hp : p ∈ m.shares) :
    ∃ e, w.entries[p]? = some e := by
  have hlt : p < w.entries.length := hs.honest.held_given p (holds_iff.mpr ⟨i, m, hi, hp⟩)
  exact ⟨_, List.getElem?_eq_getElem hlt⟩

theorem entries_release (ps : List ℕ) (w : ConfigMaps K D) :
    (release ps w).entries = w.entries := by
  induction ps generalizing w with
  | nil => rfl
  | cons p ps ih =>
    rw [release, ih]
    split <;> rfl

/-- Entries stay as they are. -/
theorem entries_step [DecidableEq K] {e : ConfigEntry D} (h : w.step op = some w')
    (he : w.entries[p]? = some e) : w'.entries[p]? = some e := by
  have hprefix : w.entries <+: w'.entries := by
    cases op <;> simp only [step, construct, copyConstruct, copyAssign, destroy, addEntry,
      rmEntry] at h
    all_goals
      repeat (split at h)
      all_goals first
        | (obtain rfl := Option.some.inj h; simp [entries_release, put])
        | cases h
  obtain ⟨es, hes⟩ := hprefix
  rw [← hes, List.getElem?_append_left (List.getElem?_eq_some_iff.mp he).1, he]

theorem Sound.deleted [DecidableEq D] (hs : w.Sound) {e : ConfigEntry D} {del : D}
    (he : w.entries[p]? = some e) (hdel : e.deletion = some del) :
    w.deletions.count (del, e.data) = if w.holds p = true then 0 else 1 := by
  rw [hs.count_deletions he hdel]
  split
  · rename_i hp
    exact hs.honest.count_held hp
  · rename_i hp
    exact hs.honest.count_dropped hs.lost (List.getElem?_eq_some_iff.mp he).1 hp

/-- The operation that deletes an object is the one by which the last map drops its entry. -/
theorem Sound.deleted_last [DecidableEq K] [DecidableEq D] (hs : w.Sound)
    (hstep : w.step op = some w') {e : ConfigEntry D} {del : D} (he : w.entries[p]? = some e)
    (hdel : e.deletion = some del) : ((del, e.data) ∉ w.deletions ∧ (del, e.data) ∈ w'.deletions ↔
      w.holds p = true ∧ w'.holds p = false) := by
  have h1 := hs.deleted he hdel
  have h2 := (sound_step hstep hs).deleted (entries_step hstep he) hdel
  rw [← List.count_eq_zero, ← List.count_pos_iff, h1, h2]
  cases w.holds p <;> cases w'.holds p <;> simp

theorem Sound.count_getKeys [DecidableEq K] (hs : w.Sound) (hi : w.map i = some m) (k : K) :
    m.getKeys.count k = if m.hasKey k = true then 1 else 0 := by
  split
  · rename_i hk
    exact List.count_eq_one_of_mem (hs.keys i m hi) (hasKey_iff.mp hk)
  · rename_i hk
    exact List.count_eq_zero.mpr fun h ↦ hk (hasKey_iff.mpr h)

theorem Sound.hasKey_iff [DecidableEq K] (hs : w.Sound) (hi : w.map i = some m) :
    m.hasKey k = true ↔ ∃ p e, (k, p) ∈ m.entries ∧ w.entries[p]? = some e := by
  rw [ConfigMaps.hasKey_iff, ConfigMap.getKeys, List.mem_map]
  constructor
  · rintro ⟨⟨k, p⟩, hp, rfl⟩
    obtain ⟨e, he⟩ := hs.entry_of_mem hi (List.mem_map.mpr ⟨_, hp, rfl⟩)
    exact ⟨p, e, hp, he⟩
  · rintro ⟨p, -, hp, -⟩
    exact ⟨(k, p), hp, rfl⟩

/-- The object that a map has for a key is that of an entry of the map. -/
theorem Sound.getObj_cases [DecidableEq K] (hs : w.Sound) (hi : w.map i = some m) (k : K) :
    (m.hasKey k = false ∧ w.getObj m k = none) ∨
      ∃ p ∈ m.shares, m.hasKey k = true ∧ w.getObj m k = some p := by
  rw [ConfigMaps.getObj]
  split
  · rename_i hk
    obtain ⟨p, hp⟩ := Option.isSome_iff_exists.mp hk
    obtain ⟨e, he⟩ := hs.entry_of_mem hi (mem_shares_of_lookup hp)
    exact .inr ⟨p, mem_shares_of_lookup hp, hk, by simp [hp, he, hs.data p e he]⟩
  · rename_i hk
    exact .inl ⟨by simpa using hk, rfl⟩

/-- An object that was deleted is that of an entry that no map has. -/
theorem Sound.holds_of_deleted (hs : w.Sound) {del : D} (h : (del, p) ∈ w.deletions) :
    w.holds p = false := by
  obtain ⟨q, hq, e, he, hdel⟩ := mem_deletions.mp h
  rw [ConfigEntry.deletes_eq, Option.map_eq_some_iff] at hdel
  obtain ⟨del', -, heq⟩ := hdel
  have hdata : e.data = p := congrArg Prod.snd heq
  rw [hs.data q e he] at hdata
  subst hdata
  exact Bool.eq_false_iff.mpr (hs.honest.not_held q hq)

/-- **Every object is deleted exactly once, by the last map that has its entry**, and the maps agree
about their keys and objects, whatever is done with them. -/
theorem lawful_run [DecidableEq K] [DecidableEq D] {ops : List (Op K D)} {w : ConfigMaps K D}
    (h : run ops = some w) : w.Lawful := by
  have hs := sound_run h
  refine ⟨fun p e del ↦ hs.deleted, fun op w' p e del hstep ↦ hs.deleted_last hstep,
    fun i m k hi ↦ hs.count_getKeys hi k, fun i m k hi ↦ hs.hasKey_iff hi, fun i m k hi ↦ ?_,
    fun i m k object hi hobj del hmem ↦ ?_, fun i m k del hi hk ↦ ?_⟩
  · rcases hs.getObj_cases hi k with ⟨hk, hobj⟩ | ⟨p, -, hk, hobj⟩ <;> simp [hk, hobj]
  · rcases hs.getObj_cases hi k with ⟨-, hnone⟩ | ⟨p, hp, -, hsome⟩
    · rw [hnone] at hobj
      cases hobj
    · obtain rfl : p = object := Option.some.inj (hsome.symm.trans hobj)
      have hheld : w.holds p = true := holds_iff.mpr ⟨i, m, hi, hp⟩
      rw [hs.holds_of_deleted hmem] at hheld
      cases hheld
  · simp [step, addEntry, hi, hk]

/-- A map is copied twice, and the copies go their own ways. -/
theorem lawful_run_copies :
    ∃ w : ConfigMaps Char Bool, run [.construct, .addEntry 0 'a' (some true),
        .addEntry 0 'b' (some false), .copyConstruct 0, .destroy 0, .construct, .copyAssign 2 1,
        .rmEntry 1 'a', .addEntry 2 'a' none, .destroy 1, .rmEntry 2 'a'] = some w ∧
      w.deletions = [(true, 0)] ∧ w.Lawful := by
  refine ⟨_, rfl, by decide, ?_⟩
  exact @lawful_run Char Bool _ _ [.construct, .addEntry 0 'a' (some true),
    .addEntry 0 'b' (some false), .copyConstruct 0, .destroy 0, .construct, .copyAssign 2 1,
    .rmEntry 1 'a', .addEntry 2 'a' none, .destroy 1, .rmEntry 2 'a'] _ rfl

end ConfigMaps
end Estd
end Cppkg
