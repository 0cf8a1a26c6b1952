import Ylisp.Hash.Map

/-!
# Runs of the hash table

`MapStep` is the specification of the two operations on a finite map, and
`Sound` says that the size, the walk and the buckets of the table are right.
Both hold along every run in which no insertion finds more than `2 ^ 30` other
keys (`sound_of_fits`). One key more and the table is to have `2 ^ 31` buckets,
which `1 << mapbits` cannot express (`not_sound`).
-/

namespace Ylisp

namespace Hash

open scoped List

/-- The operations, on keys of at least one byte. -/
inductive Op (α : Type*) where
  | add (key : List UInt8) (hkey : key ≠ []) (x : α)
  | del (key : List UInt8) (hkey : key ≠ [])

variable {α : Type*} (crc32 : List UInt8 → UInt32)

/-- An operation on the table: its return value and the table after it. -/
def step (o : Op α) (h : Hash α) : Option (ℤ × Hash α) :=
  match o with
  | .add key _ x => h.hashAdd crc32 key x
  | .del key _ => h.hashDel crc32 key

/-- What an operation on a finite map answers, and what it does. -/
def MapStep (o : Op α) (m : List UInt8 → Option α) (r : ℤ) (m' : List UInt8 → Option α) :
    Prop :=
  match o with
  | .add key _ x => r = (if (m key).isSome then 1 else 0) ∧ m' = Function.update m key (some x)
  | .del key _ => r = (if (m key).isSome then 0 else -1) ∧ m' = Function.update m key none

def walked (h : Hash α) : List (List UInt8 × α) × Bool :=
  h.hashWalk (fun seen key x => (seen ++ [(key, x)], true)) []

/-- The size, the walk and the buckets of the table. -/
structure Sound (h : Hash α) : Prop where
  finite : {key | (h.hashGet crc32 key).isSome}.Finite
  sz : h.sz = {key | (h.hashGet crc32 key).isSome}.ncard
  walk : h.walked.2 = true ∧ (h.walked.1.map Prod.fst).Nodup ∧
    ∀ key x, (key, x) ∈ h.walked.1 ↔ h.hashGet crc32 key = some x
  buckets : h.hmapsz = 2 ^ h.mapbits ∧ 4 ≤ h.mapbits
  place : ∀ i, ∀ n ∈ h.map i, i < h.hmapsz ∧ i = hv h.mapbits n.hv32 ∧ n.hv32 = crc32 n.key

/-- The insertion finds at most `2 ^ 30` other keys in the table. -/
def Fits (o : Op α) (h : Hash α) : Prop :=
  match o with
  | .add key _ _ => h.sz ≤ 2 ^ 30 ∨ (h.sz = 2 ^ 30 + 1 ∧ (h.hashGet crc32 key).isSome)
  | .del _ _ => True

variable {crc32}

theorem walked_eq (h : Hash α) : h.walked = (h.nodes.map fun n => (n.key, n.v), true) := by
  have hgo : ∀ (ns : List (Hn α)) (seen : List (List UInt8 × α)),
      hashWalk.go (fun seen key x => (seen ++ [(key, x)], true)) ns seen =
        (seen ++ ns.map fun n => (n.key, n.v), true) := by
    intro ns
    induction ns with
    | nil => intro seen; simp [hashWalk.go]
    | cons n ns ih => intro seen; simp [hashWalk.go, ih]
  exact hgo h.nodes []

theorem Placed.isSome_iff {h : Hash α} (ht : Placed crc32 h) {key : List UInt8} :
    (h.hashGet crc32 key).isSome ↔ key ∈ h.nodes.map Hn.key := by
  rw [hashGet, Option.isSome_map, ← not_iff_not, Bool.not_eq_true, Option.isSome_eq_false_iff,
    Option.isNone_iff_eq_none]
  exact ht.hfind_eq_none

theorem Table.sound {h : Hash α} (ht : Table crc32 h) : Sound crc32 h := by
  classical
  have hkeys : {key | (h.hashGet crc32 key).isSome} = ((h.nodes.map Hn.key).toFinset : Set _) := by
    ext key
    rw [Set.mem_ofPred_eq, ht.isSome_iff, List.coe_toFinset, Set.mem_ofPred_eq]
  refine ⟨?_, ?_, ?_, ⟨rfl, ht.minBits⟩, ?_⟩
  · rw [hkeys]
    exact Finset.finite_toSet _
  · rw [hkeys, Set.ncard_coe_finset, List.toFinset_card_of_nodup ht.nodup, List.length_map, ht.sz]
  · rw [walked_eq]
    refine ⟨rfl, ?_, fun key x => ?_⟩
    · rw [List.map_map]
      exact ht.nodup
    · rw [ht.hashGet_eq_some, List.mem_map]
      refine exists_congr fun n => and_congr Iff.rfl ?_
      rw [Prod.mk.injEq]
  · intro i n hn
    have hi := ht.bucket i n hn
    have hlt := h.hv_lt_hmapsz n.hv32
    rw [← hi] at hlt
    refine ⟨hlt, hi, ht.hash n ?_⟩
    rw [ht.mem_nodes, ← hi]
    exact hn

theorem Placed.hashGet_of_absent {h : Hash α} (ht : Placed crc32 h) {key : List UInt8}
    (hkey : key ∉ h.nodes.map Hn.key) : h.hashGet crc32 key = none := by
  rw [← Option.not_isSome_iff_eq_none, ht.isSome_iff]
  exact hkey

theorem Placed.hashGet_cons {h h' : Hash α} (ht : Placed crc32 h) (ht' : Placed crc32 h')
    {n : Hn α} (hperm : h'.nodes ~ n :: h.nodes) :
    h'.hashGet crc32 = Function.update (h.hashGet crc32) n.key (some n.v) := by
  funext key
  rw [Function.update_apply]
  split
  · rename_i hkey
    exact ht'.hashGet_eq_some.2 ⟨n, hperm.mem_iff.2 List.mem_cons_self, hkey.symm, rfl⟩
  · rename_i hkey
    apply Option.ext
    intro x
    rw [ht.hashGet_eq_some, ht'.hashGet_eq_some]
    refine exists_congr fun m => ?_
    rw [hperm.mem_iff, List.mem_cons]
    constructor
    · rintro ⟨rfl | hm, hk, hv⟩
      · exact absurd hk.symm hkey
      · exact ⟨hm, hk, hv⟩
    · rintro ⟨hm, hk, hv⟩
      exact ⟨Or.inr hm, hk, hv⟩

/-- What a deletion does to the table and to the map. -/
theorem Table.hashDel {h : Hash α} (ht : Table crc32 h) (key : List UInt8) :
    ∃ h', h.hashDel crc32 key = some (if (h.hashGet crc32 key).isSome then 0 else -1, h') ∧
      Table crc32 h' ∧ key ∉ h'.nodes.map Hn.key ∧
      h.sz = h'.sz + (if (h.hashGet crc32 key).isSome then 1 else 0) ∧
      h'.hashGet crc32 = Function.update (h.hashGet crc32) key none := by
  by_cases hkey : key ∈ h.nodes.map Hn.key
  · rw [if_pos (ht.isSome_iff.2 hkey), if_pos (ht.isSome_iff.2 hkey)]
    obtain ⟨n, hn, rfl⟩ := List.mem_map.1 hkey
    obtain ⟨h', hdel, htable, hperm⟩ := ht.hashDel_of_present hn
    have hnodup := (hperm.map Hn.key).nodup_iff.1 ht.nodup
    have habsent := (List.nodup_cons.1 hnodup).1
    refine ⟨h', hdel, htable, habsent, ?_, ?_⟩
    · rw [ht.sz, htable.sz, hperm.length_eq]
      rfl
    · rw [htable.toPlaced.hashGet_cons ht.toPlaced hperm, Function.update_idem,
        ← htable.hashGet_of_absent habsent, Function.update_eq_self]
  · rw [if_neg fun h0 => hkey (ht.isSome_iff.1 h0), if_neg fun h0 => hkey (ht.isSome_iff.1 h0)]
    refine ⟨h, ht.hashDel_of_absent hkey, ht, hkey, rfl, ?_⟩
    rw [← ht.hashGet_of_absent hkey, Function.update_eq_self]

/-- What an insertion that has room does to the table and to the map. -/
theorem Table.hashAdd {h : Hash α} (ht : Table crc32 h) (key : List UInt8) (x : α)
    (hfits : h.sz ≤ 2 ^ 30 ∨ (h.sz = 2 ^ 30 + 1 ∧ (h.hashGet crc32 key).isSome)) :
    ∃ h', h.hashAdd crc32 key x = some (if (h.hashGet crc32 key).isSome then 1 else 0, h') ∧
      Table crc32 h' ∧ h'.sz ≤ h.sz + 1 ∧
      h'.hashGet crc32 = Function.update (h.hashGet crc32) key (some x) := by
  obtain ⟨d, hdel, htable, habsent, hsz, hget⟩ := ht.hashDel key
  have hle : d.sz ≤ 2 ^ 30 := by
    rcases hfits with hfits | ⟨hfits, hpresent⟩
    · omega
    · rw [if_pos hpresent] at hsz
      omega
  obtain ⟨h', hadd, htable', hperm⟩ := table_hashAdd hdel htable habsent hle x
  refine ⟨h', ?_, htable', ?_, ?_⟩
  · rw [hadd]
    split <;> rfl
  · rw [htable'.sz, hperm.length_eq, List.length_cons, ← htable.sz]
    omega
  · rw [htable.toPlaced.hashGet_cons htable'.toPlaced hperm, hget, Function.update_idem]

theorem table_step (o : Op α) (h : Hash α) (hfits : Fits crc32 o h) (ht : Table crc32 h) :
    ∃ r, step crc32 o h = some r ∧ Table crc32 r.2 ∧ r.2.sz ≤ h.sz + 1 ∧
      MapStep o (h.hashGet crc32) r.1 (r.2.hashGet crc32) := by
  cases o with
  | add key hkey x =>
      obtain ⟨h', hadd, htable, hle, hget⟩ := ht.hashAdd key x hfits
      exact ⟨_, hadd, htable, hle, rfl, hget⟩
  | del key hkey =>
      obtain ⟨h', hdel, htable, -, hsz, hget⟩ := ht.hashDel key
      exact ⟨_, hdel, htable, by dsimp only; omega, rfl, hget⟩

/-- The hash table behaves as a finite map in every run that it has room for. -/
theorem sound_of_fits (ops : List (Op α))
    (hfits : Answer.AllTried (Fits crc32) (step crc32) ops hashCreate) :
    ∃ r, Answer.tryRun (step crc32) ops hashCreate = some r ∧
      Answer.Run MapStep ops (fun _ => none) r.1 (r.2.hashGet crc32) ∧ Sound crc32 r.2 := by
  have hcreate : (hashCreate : Hash α).hashGet crc32 = fun _ => none := by
    funext key
    apply table_hashCreate.hashGet_of_absent
    rw [nodes_hashCreate]
    exact List.not_mem_nil
  have hstep : ∀ (o : Op α) h, Fits crc32 o h → Table crc32 h → ∃ r, step crc32 o h = some r ∧
      Table crc32 r.2 ∧ MapStep o (h.hashGet crc32) r.1 (r.2.hashGet crc32) := by
    intro o h hf ht
    obtain ⟨r, hr, htable, -, hmap⟩ := table_step o h hf ht
    exact ⟨r, hr, htable, hmap⟩
  obtain ⟨r, hr, htable, hrun⟩ := Answer.tryRun_spec (fun h => h.hashGet crc32) hstep ops
    hashCreate hfits table_hashCreate
  rw [hcreate] at hrun
  exact ⟨r, hr, hrun, htable.sound⟩

/-- The values of `crc32` at the keys `[1]` and `[2]`. -/
def crcSample (key : List UInt8) : UInt32 :=
  if key = [1] then 0xF26B8303 else if key = [2] then 0xE13B70F7 else 0

/-- Two insertions, one that overwrites, and a deletion. -/
def sampleOps : List (Op ℕ) :=
  [.add [1] nofun 5, .add [2] nofun 6, .add [1] nofun 7, .del [2] nofun]

theorem allTried_of_length : ∀ {ops : List (Op α)} {h : Hash α}, Table crc32 h →
    h.sz + ops.length ≤ 2 ^ 30 + 1 → Answer.AllTried (Fits crc32) (step crc32) ops h
  | [], _, _, _ => trivial
  | o :: ops, h, ht, hlen => by
      rw [List.length_cons] at hlen
      have hfits : Fits crc32 o h := by
        cases o with
        | add key hkey x => exact Or.inl (by omega)
        | del key hkey => trivial
      refine ⟨hfits, fun r hr => ?_⟩
      obtain ⟨r', hr', htable, hle, -⟩ := table_step o h hfits ht
      cases hr.symm.trans hr'
      exact allTried_of_length htable (by omega)

theorem sound_of_fits_sample :
    ∃ r, Answer.tryRun (step crcSample) sampleOps hashCreate = some r ∧
      Answer.Run MapStep sampleOps (fun _ => none) r.1 (r.2.hashGet crcSample) ∧
        Sound crcSample r.2 :=
  sound_of_fits sampleOps (allTried_of_length table_hashCreate (by decide))

/-! ### One key too many -/

/-- The key of four bytes that encodes `n`. -/
def nthKey (n : ℕ) : List UInt8 :=
  [UInt8.ofNat n, UInt8.ofNat (n / 2 ^ 8), UInt8.ofNat (n / 2 ^ 16), UInt8.ofNat (n / 2 ^ 24)]

theorem nthKey_injective {n m : ℕ} (hn : n < 2 ^ 32) (hm : m < 2 ^ 32)
    (h : nthKey n = nthKey m) : n = m := by
  simp only [nthKey, List.cons.injEq, ← UInt8.toNat_inj, UInt8.toNat_ofNat'] at h
  omega

def fill (k : ℕ) : List (Op Unit) := (List.range k).map fun n => .add (nthKey n) nofun ()

theorem fill_succ (k : ℕ) : fill (k + 1) = fill k ++ [.add (nthKey k) nofun ()] := by
  rw [fill, fill, List.range_succ, List.map_append]
  rfl

theorem table_fill (crc32 : List UInt8 → UInt32) : ∀ {k : ℕ}, k ≤ 2 ^ 30 + 1 →
    ∃ r, Answer.tryRun (step crc32) (fill k) hashCreate = some r ∧ Table crc32 r.2 ∧
      r.2.sz = k ∧ ∀ n, k ≤ n → n < 2 ^ 32 → nthKey n ∉ r.2.nodes.map Hn.key
  | 0, _ => by
      refine ⟨([], hashCreate), rfl, table_hashCreate, rfl, fun n _ _ => ?_⟩
      rw [nodes_hashCreate]
      exact List.not_mem_nil
  | k + 1, hk => by
      obtain ⟨r, hr, ht, hsz, habsent⟩ := table_fill crc32 (k := k) (by omega)
      have hk' := habsent k (le_refl k) (by omega)
      obtain ⟨h', hadd, htable, hperm⟩ := table_hashAdd (ht.hashDel_of_absent hk') ht hk'
        (by dsimp only; omega) ()
      have hstep : step crc32 (.add (nthKey k) nofun ()) r.2 = some (0, h') := hadd
      rw [fill_succ, Answer.tryRun_append _ hr, Answer.tryRun_cons hstep]
      refine ⟨_, rfl, htable, ?_, fun n hn hlt => ?_⟩
      · dsimp only
        rw [htable.sz, hperm.length_eq, List.length_cons, ← ht.sz, hsz]
      · dsimp only
        rw [(hperm.map Hn.key).mem_iff, List.map_cons, List.mem_cons]
        rintro (heq | hmem)
        · have := nthKey_injective hlt (by omega) heq
          omega
        · exact habsent n (by omega) hlt hmem

/-- A table of `2 ^ 30 + 1` keys that is given a new one shifts by 31 bits. -/
theorem hashAdd_eq_none {h : Hash α} (ht : Table crc32 h) (hsz : h.sz = 2 ^ 30 + 1)
    {key : List UInt8} (hkey : key ∉ h.nodes.map Hn.key) (x : α) :
    h.hashAdd crc32 key x = none := by
  have hlt := h.mapbits_lt
  have hload := ht.load
  have hbits : h.mapbits = 30 := by
    by_contra hne
    have := Nat.pow_le_pow_right (n := 2) (by decide) (show h.mapbits ≤ 29 by omega)
    omega
  have hmod : h.hmodify 31 = none := by
    unfold hmodify
    rw [show min (max 31 minHbits) maxHbits = 31 by decide]
    dsimp only
    rw [if_neg (by omega), dif_neg (by decide)]
  rw [Option.eq_none_iff_forall_not_mem]
  rintro r hr
  obtain ⟨d, h', hdel, hroom, -⟩ := hashAdd_eq_some.1 hr
  cases hdel.symm.trans (ht.hashDel_of_absent hkey)
  have hfull : h.sz > h.hmapsz := by
    rw [hmapsz, hbits]
    omega
  rw [if_pos hfull, hbits, hmod] at hroom
  cases hroom

/-- One key more, and the table cannot have its buckets. -/
theorem not_sound : ¬ ∃ crc32 : List UInt8 → UInt32,
    ∃ r, Answer.tryRun (step crc32) (fill (2 ^ 30 + 2)) hashCreate = some r ∧
      Sound crc32 r.2 := by
  rintro ⟨crc32, r, hr, -⟩
  obtain ⟨q, hq, ht, hsz, habsent⟩ := table_fill crc32 (le_refl (2 ^ 30 + 1))
  have hstep : step crc32 (.add (nthKey (2 ^ 30 + 1)) nofun ()) q.2 = none :=
    hashAdd_eq_none ht hsz (habsent (2 ^ 30 + 1) (le_refl _) (by omega)) ()
  rw [fill_succ, Answer.tryRun_append _ hq, Answer.tryRun, hstep] at hr
  cases hr

end Hash

end Ylisp
