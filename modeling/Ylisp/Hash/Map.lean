import Mathlib.Data.Set.Card
import Ylisp.Hash.Basic
import Ylisp.Library.Answer

/-!
# The hash table as a finite map

`Table` is the invariant of the hash table. An operation is described by what it
does to the list of all nodes, up to their order: a resize keeps it
(`perm_nodes_hmodify`), a deletion takes one node away and an insertion adds one.
-/

namespace Ylisp

namespace Hash

open scoped List

/-! ### Buckets -/

section Buckets

variable {β : Type*}

/-- The rest of the buckets do not see a change of one of them. -/
theorem perm_flatMap_range {k i : ℕ} (hi : i < k) (g : ℕ → List β) :
    ((List.range k).flatMap g).Perm (g i ++ ((List.range k).erase i).flatMap g) :=
  (List.perm_cons_erase (List.mem_range.2 hi)).flatMap_right g

theorem flatMap_erase_update {k i : ℕ} (g : ℕ → List β) (l : List β) :
    ((List.range k).erase i).flatMap (Function.update g i l) =
      ((List.range k).erase i).flatMap g := by
  apply List.flatMap_congr
  intro j hj
  have hne : j ≠ i := ((List.nodup_range).mem_erase_iff.1 hj).1
  rw [Function.update_of_ne hne]

theorem perm_flatMap_update {k i : ℕ} (hi : i < k) (g : ℕ → List β) (l : List β) :
    ((List.range k).flatMap (Function.update g i l)).Perm
      (l ++ ((List.range k).erase i).flatMap g) := by
  have h := perm_flatMap_range hi (Function.update g i l)
  rw [Function.update_self, flatMap_erase_update] at h
  exact h

end Buckets

variable {α : Type*}

theorem perm_addLast {k i : ℕ} (hi : i < k) (map : ℕ → List (Hn α)) (n : Hn α) :
    ((List.range k).flatMap (addLast map i n)).Perm (n :: (List.range k).flatMap map) := by
  calc (List.range k).flatMap (addLast map i n)
      _ ~ (map i ++ [n]) ++ ((List.range k).erase i).flatMap map := perm_flatMap_update hi map _
      _ ~ n :: (map i ++ ((List.range k).erase i).flatMap map) := by
          rw [List.append_assoc]
          exact List.perm_middle
      _ ~ n :: (List.range k).flatMap map := (perm_flatMap_range hi map).symm.cons n

theorem perm_foldl_addLast {k : ℕ} (bits : ℕ) :
    ∀ (ns : List (Hn α)) (map : ℕ → List (Hn α)), (∀ n ∈ ns, hv bits n.hv32 < k) →
      ((List.range k).flatMap
        (ns.foldl (fun map n => addLast map (hv bits n.hv32) n) map)).Perm
          (ns ++ (List.range k).flatMap map)
  | [], _, _ => List.Perm.refl _
  | n :: ns, map, h => by
      have hn := h n List.mem_cons_self
      have ih := perm_foldl_addLast bits ns (addLast map (hv bits n.hv32) n)
        fun m hm => h m (List.mem_cons_of_mem n hm)
      refine ih.trans ?_
      exact ((perm_addLast hn map n).append_left ns).trans List.perm_middle

theorem hv_lt {bits : ℕ} (hbits : bits ≤ 32) (hv32 : UInt32) : hv bits hv32 < 2 ^ bits := by
  rw [hv, Nat.div_lt_iff_lt_mul (Nat.two_pow_pos _), ← pow_add, Nat.add_sub_cancel' hbits]
  exact hv32.toNat_lt

theorem hv_lt_hmapsz (h : Hash α) (hv32 : UInt32) : hv h.mapbits hv32 < h.hmapsz :=
  hv_lt (Nat.le_of_lt (Nat.lt_succ_of_lt h.mapbits_lt)) hv32

/-! ### The invariant -/

/-- Each node lies in the bucket of its hash value, no two nodes have one key, and `sz` is their
number. -/
structure Placed (crc32 : List UInt8 → UInt32) (h : Hash α) : Prop where
  minBits : 4 ≤ h.mapbits
  bucket : ∀ i, ∀ n ∈ h.map i, i = hv h.mapbits n.hv32
  hash : ∀ n ∈ h.nodes, n.hv32 = crc32 n.key
  nodup : (h.nodes.map Hn.key).Nodup
  sz : h.sz = h.nodes.length

/-- The invariant of the table; it holds at most one node more than it has
buckets. -/
structure Table (crc32 : List UInt8 → UInt32) (h : Hash α) : Prop
    extends Placed crc32 h where
  load : h.sz ≤ 2 ^ h.mapbits + 1

variable {crc32 : List UInt8 → UInt32} {h : Hash α}

namespace Placed

theorem mem_nodes (ht : Placed crc32 h) {n : Hn α} :
    n ∈ h.nodes ↔ n ∈ h.map (hv h.mapbits n.hv32) := by
  rw [nodes, List.mem_flatMap]
  constructor
  · rintro ⟨i, _, hn⟩
    rw [← ht.bucket i n hn]
    exact hn
  · intro hn
    exact ⟨_, List.mem_range.2 (h.hv_lt_hmapsz _), hn⟩

theorem eq_of_key (ht : Placed crc32 h) {n m : Hn α} (hn : n ∈ h.nodes) (hm : m ∈ h.nodes)
    (hkey : n.key = m.key) : n = m :=
  List.inj_on_of_nodup_map ht.nodup hn hm hkey

theorem hfind_eq_some (ht : Placed crc32 h) {key : List UInt8} {n : Hn α} :
    h.hfind crc32 key = some n ↔ n ∈ h.nodes ∧ n.key = key := by
  constructor
  · intro hfind
    have hmem := List.mem_of_find?_eq_some hfind
    have htest := List.find?_some hfind
    rw [decide_eq_true_iff] at htest
    refine ⟨ht.mem_nodes.2 ?_, htest.2⟩
    rw [htest.1]
    exact hmem
  · rintro ⟨hn, rfl⟩
    have hhash := ht.hash n hn
    have hmem := ht.mem_nodes.1 hn
    cases hfind : h.hfind crc32 n.key with
    | none =>
        rw [hhash] at hmem
        have htest := List.find?_eq_none.1 hfind n hmem
        exact absurd (decide_eq_true_iff.2 ⟨hhash, rfl⟩) htest
    | some m =>
        have hm := List.mem_of_find?_eq_some hfind
        have htest := List.find?_some hfind
        rw [decide_eq_true_iff] at htest
        have hm' : m ∈ h.nodes := by
          apply ht.mem_nodes.2
          rw [htest.1]
          exact hm
        rw [ht.eq_of_key hm' hn htest.2]

theorem hashGet_eq_some (ht : Placed crc32 h) {key : List UInt8} {x : α} :
    h.hashGet crc32 key = some x ↔ ∃ n ∈ h.nodes, n.key = key ∧ n.v = x := by
  rw [hashGet, Option.map_eq_some_iff]
  constructor
  · rintro ⟨n, hn, rfl⟩
    obtain ⟨hmem, hkey⟩ := ht.hfind_eq_some.1 hn
    exact ⟨n, hmem, hkey, rfl⟩
  · rintro ⟨n, hmem, hkey, rfl⟩
    exact ⟨n, ht.hfind_eq_some.2 ⟨hmem, hkey⟩, rfl⟩

theorem hfind_eq_none (ht : Placed crc32 h) {key : List UInt8} :
    h.hfind crc32 key = none ↔ key ∉ h.nodes.map Hn.key := by
  rw [← Option.not_isSome_iff_eq_none, Option.isSome_iff_exists, not_iff_not, List.mem_map]
  exact exists_congr fun n => ht.hfind_eq_some

end Placed

theorem nodes_hashCreate : (hashCreate : Hash α).nodes = [] :=
  List.flatMap_eq_nil_iff.2 fun _ _ => rfl

theorem table_hashCreate : Table crc32 (hashCreate : Hash α) where
  minBits := le_refl _
  bucket := fun _ _ hn => by cases hn
  hash := by simp [nodes_hashCreate]
  nodup := by simp [nodes_hashCreate]
  sz := by
    rw [nodes_hashCreate]
    rfl
  load := Nat.zero_le _

/-! ### A resize -/

theorem bucket_foldl_addLast {bits : ℕ} :
    ∀ (ns : List (Hn α)) (map : ℕ → List (Hn α)),
      (∀ i, ∀ n ∈ map i, i = hv bits n.hv32) → ∀ i,
      ∀ n ∈ ns.foldl (fun map n => addLast map (hv bits n.hv32) n) map i, i = hv bits n.hv32
  | [], _, hmap => hmap
  | m :: ns, map, hmap => by
      apply bucket_foldl_addLast ns
      intro i n hn
      change n ∈ addLast map (hv bits m.hv32) m i at hn
      rw [addLast, Function.update_apply] at hn
      split at hn
      · rename_i hi
        rcases List.mem_append.1 hn with hn | hn
        · exact hmap i n (hi ▸ hn)
        · rw [List.mem_singleton.1 hn, hi]
      · exact hmap i n hn

/-- A resize keeps the nodes and puts each into its new bucket. -/
theorem Placed.hmodify (ht : Placed crc32 h) (bits : ℕ) (hbits : bits ≤ 30) :
    ∃ h', h.hmodify bits = some h' ∧ Placed crc32 h' ∧ h'.mapbits = max bits 4 ∧
      h'.sz = h.sz ∧ h'.nodes ~ h.nodes := by
  have hclamp : min (max bits minHbits) maxHbits = max bits 4 := by
    rw [minHbits, maxHbits]
    omega
  have hlt : max bits 4 < 31 := by omega
  unfold Hash.hmodify
  rw [hclamp]
  dsimp only
  split
  next heq => exact ⟨h, rfl, ht, heq, rfl, List.Perm.refl _⟩
  next =>
    refine ⟨_, rfl, ?_⟩
    have hperm : (Hash.mk (h.nodes.foldl
        (fun map n => addLast map (hv (max bits 4) n.hv32) n) fun _ => []) h.sz
          (max bits 4) hlt).nodes ~ h.nodes := by
      have hfold := perm_foldl_addLast (k := 2 ^ max bits 4) (max bits 4) h.nodes
        (fun _ => []) fun n _ => hv_lt (by omega) n.hv32
      have hempty : ((List.range (2 ^ max bits 4)).flatMap fun _ => ([] : List (Hn α))) = [] :=
        List.flatMap_eq_nil_iff.2 fun _ _ => rfl
      rw [hempty, List.append_nil] at hfold
      exact hfold
    refine ⟨⟨le_max_right _ _, ?_, ?_, ?_, ?_⟩, rfl, rfl, hperm⟩
    · exact bucket_foldl_addLast h.nodes (fun _ => []) fun _ _ hn => by cases hn
    · exact fun n hn => ht.hash n (hperm.mem_iff.1 hn)
    · exact (hperm.map Hn.key).nodup_iff.2 ht.nodup
    · rw [hperm.length_eq]
      exact ht.sz

/-! ### Deletion and insertion -/

def takeOut (h : Hash α) (crc32 : List UInt8 → UInt32) (key : List UInt8) : Hash α :=
  { h with
    map := Function.update h.map (hv h.mapbits (crc32 key))
      ((h.map (hv h.mapbits (crc32 key))).eraseP fun n => n.hv32 = crc32 key ∧ n.key = key)
    sz := h.sz - 1 }

theorem Placed.perm_takeOut (ht : Placed crc32 h) {n : Hn α} (hn : n ∈ h.nodes) :
    h.nodes ~ n :: (h.takeOut crc32 n.key).nodes := by
  have hhash := ht.hash n hn
  have hmem := ht.mem_nodes.1 hn
  rw [hhash] at hmem
  have hlt : hv h.mapbits (crc32 n.key) < h.hmapsz := h.hv_lt_hmapsz _
  obtain ⟨m, l1, l2, -, htest, heq, herase⟩ := List.exists_of_eraseP
    (p := fun m : Hn α => decide (m.hv32 = crc32 n.key ∧ m.key = n.key)) hmem
    (decide_eq_true_iff.2 ⟨hhash, rfl⟩)
  rw [decide_eq_true_iff] at htest
  have hm : m ∈ h.nodes := by
    apply ht.mem_nodes.2
    rw [htest.1, heq]
    simp
  rw [ht.eq_of_key hm hn htest.2] at heq
  have hrest := perm_flatMap_update hlt h.map (l1 ++ l2)
  have hwhole := perm_flatMap_range hlt h.map
  rw [heq] at hwhole
  have hnodes : (h.takeOut crc32 n.key).nodes =
      (List.range h.hmapsz).flatMap
        (Function.update h.map (hv h.mapbits (crc32 n.key)) (l1 ++ l2)) := by
    rw [← herase]
    rfl
  rw [hnodes]
  refine hwhole.trans ?_
  refine List.Perm.trans ?_ (hrest.symm.cons n)
  rw [List.append_assoc, List.append_assoc]
  exact List.perm_middle

theorem Placed.takeOut (ht : Placed crc32 h) {n : Hn α} (hn : n ∈ h.nodes) :
    Placed crc32 (h.takeOut crc32 n.key) := by
  have hperm := ht.perm_takeOut hn
  refine ⟨ht.minBits, ?_, ?_, ?_, ?_⟩
  · intro i m hm
    change m ∈ Function.update h.map _ _ i at hm
    rw [Function.update_apply] at hm
    split at hm
    · rename_i hi
      exact ht.bucket i m (hi ▸ List.mem_of_mem_eraseP hm)
    · exact ht.bucket i m hm
  · exact fun m hm => ht.hash m (hperm.mem_iff.2 (List.mem_cons_of_mem n hm))
  · have hnodup := (hperm.map Hn.key).nodup_iff.1 ht.nodup
    exact (List.nodup_cons.1 hnodup).2
  · have hlen := hperm.length_eq
    rw [List.length_cons] at hlen
    change h.sz - 1 = _
    rw [ht.sz, hlen, Nat.add_sub_cancel]

theorem Placed.hashDel_of_absent (ht : Placed crc32 h) {key : List UInt8}
    (hkey : key ∉ h.nodes.map Hn.key) : h.hashDel crc32 key = some (-1, h) := by
  rw [hashDel, ht.hfind_eq_none.2 hkey]

theorem Table.hashDel_of_present (ht : Table crc32 h) {n : Hn α} (hn : n ∈ h.nodes) :
    ∃ h', h.hashDel crc32 n.key = some (0, h') ∧ Table crc32 h' ∧ h.nodes ~ n :: h'.nodes := by
  have hout := ht.takeOut hn
  have hperm := ht.perm_takeOut hn
  have hsz : (h.takeOut crc32 n.key).sz = h.sz - 1 := rfl
  have hbits : (h.takeOut crc32 n.key).mapbits = h.mapbits := rfl
  have hmapsz : (h.takeOut crc32 n.key).hmapsz = 2 ^ h.mapbits := rfl
  have hdel : h.hashDel crc32 n.key =
      if (h.takeOut crc32 n.key).sz < (h.takeOut crc32 n.key).hmapsz / 4 then
        ((h.takeOut crc32 n.key).hmodify ((h.takeOut crc32 n.key).mapbits - 1)).map
          fun h' => (0, h')
      else some (0, h.takeOut crc32 n.key) := by
    rw [hashDel, ht.hfind_eq_some.2 ⟨hn, rfl⟩]
    rfl
  rw [hdel]
  split
  next hsmall =>
    have hlt := h.mapbits_lt
    obtain ⟨h', hmod, hplaced, hbits', hsz', hperm'⟩ :=
      hout.hmodify ((h.takeOut crc32 n.key).mapbits - 1) (by omega)
    rw [hmod]
    refine ⟨h', rfl, ⟨hplaced, ?_⟩, hperm.trans (hperm'.symm.cons n)⟩
    rw [hsz', hbits']
    rw [hmapsz] at hsmall
    rw [hbits]
    have hpow : 2 ^ h.mapbits = 2 * 2 ^ (h.mapbits - 1) := by
      rw [← pow_succ', Nat.sub_add_cancel (Nat.le_trans (by decide) ht.minBits)]
    have hle : 2 ^ (h.mapbits - 1) ≤ 2 ^ max (h.mapbits - 1) 4 :=
      Nat.pow_le_pow_right (by decide) (le_max_left _ _)
    omega
  next =>
    refine ⟨_, rfl, ⟨hout, ?_⟩, hperm⟩
    have hload := ht.load
    rw [hsz, hbits]
    omega

theorem Placed.addLast (ht : Placed crc32 h) {key : List UInt8}
    (hkey : key ∉ h.nodes.map Hn.key) (x : α) :
    Placed crc32 { h with
      map := addLast h.map (hv h.mapbits (crc32 key)) ⟨key, crc32 key, x⟩
      sz := h.sz + 1 } ∧
    (Hash.mk (Hash.addLast h.map (hv h.mapbits (crc32 key)) ⟨key, crc32 key, x⟩) (h.sz + 1)
      h.mapbits h.mapbits_lt).nodes ~ ⟨key, crc32 key, x⟩ :: h.nodes := by
  have hperm : (Hash.mk (Hash.addLast h.map (hv h.mapbits (crc32 key)) ⟨key, crc32 key, x⟩)
      (h.sz + 1) h.mapbits h.mapbits_lt).nodes ~ ⟨key, crc32 key, x⟩ :: h.nodes :=
    perm_addLast (h.hv_lt_hmapsz _) h.map _
  refine ⟨⟨ht.minBits, ?_, ?_, ?_, ?_⟩, hperm⟩
  · exact bucket_foldl_addLast [⟨key, crc32 key, x⟩] h.map ht.bucket
  · intro n hn
    rcases List.mem_cons.1 (hperm.mem_iff.1 hn) with rfl | hn
    · rfl
    · exact ht.hash n hn
  · rw [(hperm.map Hn.key).nodup_iff]
    exact List.nodup_cons.2 ⟨hkey, ht.nodup⟩
  · rw [hperm.length_eq, List.length_cons, ← ht.sz]

theorem Table.grow (ht : Table crc32 h) (hsz : h.sz ≤ 2 ^ 30) :
    ∃ h', (if h.sz > h.hmapsz then h.hmodify (h.mapbits + 1) else some h) = some h' ∧
      Placed crc32 h' ∧ h'.sz ≤ 2 ^ h'.mapbits ∧ h'.nodes ~ h.nodes := by
  split
  next hfull =>
    rw [hmapsz] at hfull
    have hlt : h.mapbits < 30 := by
      by_contra hge
      have := Nat.pow_le_pow_right (n := 2) (by decide) (Nat.le_of_not_lt hge)
      omega
    obtain ⟨h', hmod, hplaced, hbits, hsz', hperm⟩ := ht.hmodify (h.mapbits + 1) hlt
    refine ⟨h', hmod, hplaced, ?_, hperm⟩
    have hmin := ht.minBits
    have hload := ht.load
    have hpow : 1 ≤ 2 ^ h.mapbits := Nat.one_le_two_pow
    rw [hsz', hbits, max_eq_left (by omega), pow_succ]
    omega
  next hroom => exact ⟨h, rfl, ht.toPlaced, Nat.le_of_not_lt hroom, List.Perm.refl _⟩

theorem table_hashAdd {key : List UInt8} {d : ℤ × Hash α}
    (hdel : h.hashDel crc32 key = some d) (hd : Table crc32 d.2)
    (hkey : key ∉ d.2.nodes.map Hn.key) (hsz : d.2.sz ≤ 2 ^ 30) (x : α) :
    ∃ h', h.hashAdd crc32 key x = some (if d.1 = 0 then 1 else 0, h') ∧ Table crc32 h' ∧
      h'.nodes ~ ⟨key, crc32 key, x⟩ :: d.2.nodes := by
  obtain ⟨h', hroom, hplaced, hload, hperm⟩ := hd.grow hsz
  have hkey' : key ∉ h'.nodes.map Hn.key := by
    rw [(hperm.map Hn.key).mem_iff]
    exact hkey
  obtain ⟨hadd, hnodes⟩ := hplaced.addLast hkey' x
  exact ⟨_, hashAdd_eq_some.2 ⟨d, h', hdel, hroom, rfl⟩, ⟨hadd, Nat.succ_le_succ hload⟩,
    hnodes.trans (hperm.cons _)⟩

end Hash

end Ylisp
