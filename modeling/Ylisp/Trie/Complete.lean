import Mathlib.Data.List.Nodup
import Ylisp.Library.Prefix
import Ylisp.Trie.Edits

/-!
# Completion of a prefix

`yltrie_auto_complete` follows the nodes below a prefix as long as there is one way to go,
and stores the bytes of that way: the longest common prefix of what follows in the keys.
In a pruned trie a node without a value and without children is the root of the empty trie,
and only there an assertion of the loop fails (`completed_iff`).
-/

namespace Ylisp

namespace Trie

variable {α : Type*}

def yltrieBranch : ℤ := 0

def yltrieLeaf : ℤ := 1

def yltrieFail : ℤ := 2

/-- How a completion ends: with a result and the bytes at `buf` and behind it, or in an
assertion. -/
inductive Completion where
  | ret (r : ℤ) (buf : ℕ → UInt8)
  | assertion

def countChildren (n : Node α) : ℕ × Fin 16 :=
  (List.finRange 16).foldl (fun r i => if (n.child i).isNull then r else (r.1 + 1, i)) (0, 0)

/-- The loop of `yltrie_auto_complete` with `bi` bytes stored; `some i` stands for the second
half of its body, where `i` is the front half of the next byte. -/
def completeLoop (bufsz : ℕ) : Node α → Option (Fin 16) → ℕ → (ℕ → UInt8) → Completion
  | .null, none, bi, buf => .ret (-1) (Function.update buf bi 0)
  -- A child that was counted is not NULL.
  | .null, some _, _, _ => .assertion
  | .node v n, none, bi, buf =>
      let (cnt, j) := countChildren (.node v n)
      if cnt > 1 ∨ cnt = 1 ∧ v.isSome then .ret yltrieBranch (Function.update buf bi 0)
      else if cnt = 0 then
        if v.isSome then .ret yltrieLeaf (Function.update buf bi 0) else .assertion
      else completeLoop bufsz (n j) (some j) bi buf
  | .node v n, some i, bi, buf =>
      if v.isSome then .assertion
      else
        let (cnt, j) := countChildren (.node v n)
        if cnt > 1 then .ret yltrieBranch (Function.update buf bi 0)
        else if cnt = 0 then .assertion
        else if bi ≥ bufsz - 1 then .ret (-1) buf
        else completeLoop bufsz (n j) none (bi + 1) (Function.update buf bi (join i j))

def yltrieAutoComplete (t : Trie α) (startWith : List UInt8) (buf : ℕ → UInt8) (bufsz : ℕ) :
    Completion :=
  let n := getNode t.rt startWith
  if n.isNull then .ret yltrieFail buf else completeLoop bufsz n none 0 buf

/-- The answer and the buffer that are promised for a prefix with the continuations `S`. -/
def Completed (S : Set (List UInt8)) (buf : ℕ → UInt8) (bufsz : ℕ) (c : Completion) : Prop :=
  ∃ r buf', c = .ret r buf' ∧ (∀ i, bufsz ≤ i → buf' i = buf i) ∧ (r = yltrieFail ↔ S = ∅) ∧
    (S.Nonempty → ∃ w, Prefix.IsLongest S w ∧
      if w.length < bufsz then
        (List.range (w.length + 1)).map buf' = w ++ [0] ∧
          (S.Subsingleton → r = yltrieLeaf) ∧ (¬ S.Subsingleton → r = yltrieBranch)
      else r < 0)

/-! ### The children of a node -/

section Count

variable {n : Node α}

def places (n : Node α) : List (Fin 16) :=
  (List.finRange 16).filter fun i => !(n.child i).isNull

theorem count_foldl (l : List (Fin 16)) : ∀ (cnt : ℕ) (j : Fin 16),
    l.foldl (fun r i => if (n.child i).isNull then r else (r.1 + 1, i)) (cnt, j) =
      (cnt + (l.filter fun i => !(n.child i).isNull).length,
        (l.filter fun i => !(n.child i).isNull).getLastD j) := by
  induction l with
  | nil => exact fun _ _ => rfl
  | cons i l ih =>
      intro cnt j
      rw [List.foldl_cons, List.filter_cons]
      cases hi : (n.child i).isNull with
      | true => exact ih cnt j
      | false =>
          simp only [Bool.false_eq_true, if_false, Bool.not_false, if_true, List.length_cons,
            List.getLastD_cons, ih]
          rw [Nat.add_assoc, Nat.add_comm 1]

theorem countChildren_eq (n : Node α) :
    countChildren n = ((places n).length, (places n).getLastD 0) := by
  rw [countChildren, count_foldl, Nat.zero_add]
  rfl

theorem mem_places {i : Fin 16} : i ∈ places n ↔ n.child i ≠ .null := by
  rw [places, List.mem_filter, Bool.not_eq_true']
  constructor
  · rintro ⟨-, hi⟩ h0
    rw [h0] at hi
    cases hi
  · intro hi
    exact ⟨List.mem_finRange i, Bool.eq_false_iff.2 fun h0 => hi ((Node.isNull_iff _).1 h0)⟩

theorem nodup_places (n : Node α) : (places n).Nodup := (List.nodup_finRange 16).filter _

theorem count_cases (n : Node α) :
    ((countChildren n).1 = 0 ∧ ∀ i, n.child i = .null) ∨
    ((countChildren n).1 = 1 ∧ n.child (countChildren n).2 ≠ .null ∧
      ∀ i, n.child i ≠ .null → i = (countChildren n).2) ∨
    ((countChildren n).1 > 1 ∧ ∃ i j, i ≠ j ∧ n.child i ≠ .null ∧ n.child j ≠ .null) := by
  rw [countChildren_eq]
  have hmem := fun i => mem_places (n := n) (i := i)
  have hnodup := nodup_places n
  match hp : places n with
  | [] =>
      refine Or.inl ⟨rfl, fun i => ?_⟩
      have hi := hmem i
      rw [hp] at hi
      simpa using hi
  | [j] =>
      rw [hp] at hmem
      refine Or.inr (Or.inl ⟨rfl, (hmem j).1 List.mem_cons_self, fun i hi => ?_⟩)
      exact List.mem_singleton.1 ((hmem i).2 hi)
  | i :: j :: l =>
      rw [hp] at hmem hnodup
      refine Or.inr (Or.inr ⟨by simp, i, j, ?_, (hmem i).1 (by simp), (hmem j).1 (by simp)⟩)
      rintro rfl
      exact (List.nodup_cons.1 hnodup).1 List.mem_cons_self

end Count

/-! ### The keys below a node -/

def Node.keys (n : Node α) : Set (List UInt8) := {key | (n.lookup key).isSome}

section Keys

variable {n : Node α} {h : ℕ}

theorem Node.nil_mem_keys : [] ∈ n.keys ↔ n.v.isSome := Iff.rfl

theorem Node.cons_mem_keys {c : UInt8} {p : List UInt8} :
    c :: p ∈ n.keys ↔ p ∈ (n.byte c).keys := Iff.rfl

theorem Node.exists_key (hn : n.Bounded (2 * h)) (hpruned : n.Pruned)
    (hleaf : n.isEmptyLeaf = false) : n.keys.Nonempty := by
  obtain ⟨q, hq⟩ := exists_valueAt hpruned hleaf
  obtain ⟨hle, heven⟩ := hn.even_of_valueAt hq
  obtain ⟨p, rfl⟩ := exists_nibbles q (by omega)
  rw [valueAt_nibbles] at hq
  exact ⟨p, hq⟩

theorem Node.Pruned.leaf_child (hpruned : n.Pruned) {i : Fin 16} (hi : n.child i ≠ .null) :
    (n.child i).isEmptyLeaf = false :=
  Bool.eq_false_iff.2 fun h0 => hi ((pruned_iff.1 hpruned i).1 h0)

/-- There is no value between the halves of a byte. -/
theorem Node.Bounded.v_child (hn : n.Bounded (2 * h)) {i : Fin 16} (hi : n.child i ≠ .null) :
    (n.child i).v = none := by
  by_contra hv
  have hpos := hn.pos hi
  have heven := (hn.child i).value (Option.isSome_iff_ne_none.2 hv)
  omega

theorem Node.exists_child {n : Node α} (hv : n.v = none) (hleaf : n.isEmptyLeaf = false) :
    ∃ i, n.child i ≠ .null := by
  by_contra hnone
  rw [not_exists] at hnone
  have hempty : n.isEmptyLeaf = true := isEmptyLeaf_iff.2 ⟨hv, fun i => not_not.1 (hnone i)⟩
  rw [hempty] at hleaf
  cases hleaf

theorem Node.byte_join (n : Node α) (i j : Fin 16) :
    n.byte (join i j) = (n.child i).child j := by
  rw [byte, front_join, back_join]

theorem Node.Bounded.back (hn : n.Bounded (2 * h)) (i j : Fin 16) :
    ((n.child i).child j).Bounded (2 * (h - 1)) := by
  have hb := (hn.child i).child j
  rwa [show 2 * h - 1 - 1 = 2 * (h - 1) by omega] at hb

theorem Node.exists_key_join (hn : n.Bounded (2 * h)) (hpruned : n.Pruned) {i j : Fin 16}
    (hij : (n.child i).child j ≠ .null) : ∃ p, join i j :: p ∈ n.keys := by
  obtain ⟨p, hp⟩ := exists_key (hn.back i j) ((hpruned.child i).child j)
    ((hpruned.child i).leaf_child hij)
  refine ⟨p, ?_⟩
  rw [cons_mem_keys, byte_join]
  exact hp

theorem Node.exists_key_child (hn : n.Bounded (2 * h)) (hpruned : n.Pruned) {i : Fin 16}
    (hi : n.child i ≠ .null) : ∃ c p, front c = i ∧ c :: p ∈ n.keys := by
  obtain ⟨j, hj⟩ := exists_child (hn.v_child hi) (hpruned.leaf_child hi)
  obtain ⟨p, hp⟩ := exists_key_join hn hpruned hj
  exact ⟨join i j, p, front_join i j, hp⟩

/-- Two different keys that share no byte at their start. -/
theorem branches {S : Set (List UInt8)} {c c' : UInt8} {p p' : List UInt8} (hp : c :: p ∈ S)
    (hp' : c' :: p' ∈ S) (hc : c ≠ c') : Prefix.IsLongest S [] ∧ ¬ S.Subsingleton :=
  ⟨Prefix.isLongest_nil_of_ne hp hp' hc, fun h => hc (List.cons.inj (h hp hp')).1⟩

theorem Node.branches_child (hn : n.Bounded (2 * h)) (hpruned : n.Pruned) {i j : Fin 16}
    (hij : i ≠ j) (hi : n.child i ≠ .null) (hj : n.child j ≠ .null) :
    Prefix.IsLongest n.keys [] ∧ ¬ n.keys.Subsingleton := by
  obtain ⟨c, p, rfl, hp⟩ := exists_key_child hn hpruned hi
  obtain ⟨c', p', rfl, hp'⟩ := exists_key_child hn hpruned hj
  exact branches hp hp' fun hc => hij (congrArg front hc)

theorem Node.branches_value (hn : n.Bounded (2 * h)) (hpruned : n.Pruned) (hv : n.v.isSome)
    {i : Fin 16} (hi : n.child i ≠ .null) :
    Prefix.IsLongest n.keys [] ∧ ¬ n.keys.Subsingleton := by
  obtain ⟨c, p, -, hp⟩ := exists_key_child hn hpruned hi
  refine ⟨Prefix.isLongest_nil_of_mem (nil_mem_keys.2 hv), fun h => ?_⟩
  cases h (nil_mem_keys.2 hv) hp

theorem Node.branches_back (hn : n.Bounded (2 * h)) (hpruned : n.Pruned) {i j j' : Fin 16}
    (hjj : j ≠ j') (hj : (n.child i).child j ≠ .null) (hj' : (n.child i).child j' ≠ .null) :
    Prefix.IsLongest n.keys [] ∧ ¬ n.keys.Subsingleton := by
  obtain ⟨p, hp⟩ := exists_key_join hn hpruned hj
  obtain ⟨p', hp'⟩ := exists_key_join hn hpruned hj'
  refine branches hp hp' fun hc => hjj ?_
  have hback := congrArg back hc
  rwa [back_join, back_join] at hback

/-- Without a value and with one way down, all keys go on with one byte. -/
theorem Node.keys_of_single (hv : n.v = none) {i j : Fin 16}
    (hi : ∀ i', n.child i' ≠ .null → i' = i)
    (hj : ∀ j', (n.child i).child j' ≠ .null → j' = j) {key : List UInt8} (hkey : key ∈ n.keys) :
    ∃ p, key = join i j :: p := by
  cases key with
  | nil =>
      have hnil := nil_mem_keys.1 hkey
      rw [hv] at hnil
      cases hnil
  | cons c p =>
      have hbyte : n.byte c ≠ .null := by
        intro h0
        rw [cons_mem_keys, h0] at hkey
        simp [keys] at hkey
      have hfront := hi _ (child_front_ne_null hbyte)
      have hback : back c = j := hj _ (by rw [← hfront]; exact hbyte)
      refine ⟨p, ?_⟩
      have hfront' : front c = front (join i j) := by rw [front_join]; exact hfront
      have hback' : back c = back (join i j) := by rw [back_join]; exact hback
      rw [front_back_injective hfront' hback']

end Keys

/-! ### The loop -/

section Loop

variable {bufsz : ℕ} {out : List UInt8} {buf buf' : ℕ → UInt8}

structure Stored (bufsz : ℕ) (buf : ℕ → UInt8) (out : List UInt8) (buf' : ℕ → UInt8) : Prop where
  bytes : (List.range out.length).map buf' = out
  outside : ∀ i, bufsz ≤ i → buf' i = buf i

theorem Stored.push (h : Stored bufsz buf out buf') (hlt : out.length < bufsz) (c : UInt8) :
    Stored bufsz buf (out ++ [c]) (Function.update buf' out.length c) where
  bytes := by
    have hmap : (List.range out.length).map (Function.update buf' out.length c) = out := by
      refine Eq.trans (List.map_congr_left fun i hi => ?_) h.bytes
      exact Function.update_of_ne (Nat.ne_of_lt (List.mem_range.1 hi)) _ _
    rw [List.length_append, List.length_singleton, List.range_succ, List.map_append, hmap]
    simp
  outside := by
    intro i hi
    rw [Function.update_of_ne (by omega)]
    exact h.outside i hi

def LoopEnds (S : Set (List UInt8)) (bufsz : ℕ) (buf : ℕ → UInt8) (out : List UInt8)
    (c : Completion) : Prop :=
  ∃ w r buf', Prefix.IsLongest S w ∧ c = .ret r buf' ∧
    if out.length + w.length < bufsz then
      Stored bufsz buf (out ++ w ++ [0]) buf' ∧
        (S.Subsingleton → r = yltrieLeaf) ∧ (¬ S.Subsingleton → r = yltrieBranch)
    else r = -1 ∧ ∀ i, bufsz ≤ i → buf' i = buf i

theorem loopEnds_branch {S : Set (List UInt8)} (hS : Prefix.IsLongest S [] ∧ ¬ S.Subsingleton)
    (h : Stored bufsz buf out buf') (hlt : out.length < bufsz) :
    LoopEnds S bufsz buf out (.ret yltrieBranch (Function.update buf' out.length 0)) := by
  refine ⟨[], _, _, hS.1, rfl, ?_⟩
  rw [if_pos (by simpa using hlt), List.append_nil]
  exact ⟨h.push hlt 0, fun hs => absurd hs hS.2, fun _ => rfl⟩

theorem loopEnds_leaf {S : Set (List UInt8)} (hnil : [] ∈ S) (hS : S.Subsingleton)
    (h : Stored bufsz buf out buf') (hlt : out.length < bufsz) :
    LoopEnds S bufsz buf out (.ret yltrieLeaf (Function.update buf' out.length 0)) := by
  refine ⟨[], _, _, Prefix.isLongest_nil_of_mem hnil, rfl, ?_⟩
  rw [if_pos (by simpa using hlt), List.append_nil]
  exact ⟨h.push hlt 0, fun _ => rfl, fun hs => absurd hS hs⟩

/-- All keys go on with the byte `c`, which the loop has stored. -/
theorem LoopEnds.cons {S : Set (List UInt8)} {c : UInt8} {e : Completion} (hne : S.Nonempty)
    (hc : ∀ k ∈ S, ∃ p, k = c :: p) (h : LoopEnds {p | c :: p ∈ S} bufsz buf (out ++ [c]) e) :
    LoopEnds S bufsz buf out e := by
  obtain ⟨w, r, buf', hw, he, hr⟩ := h
  refine ⟨c :: w, r, buf', Prefix.isLongest_cons hne hc hw, he, ?_⟩
  have hlen : out.length + (c :: w).length = (out ++ [c]).length + w.length := by
    simp only [List.length_append, List.length_cons, List.length_nil]
    omega
  have hsub : {p | c :: p ∈ S}.Subsingleton ↔ S.Subsingleton := by
    constructor
    · intro hs k hk k' hk'
      obtain ⟨p, rfl⟩ := hc k hk
      obtain ⟨p', rfl⟩ := hc k' hk'
      rw [hs hk hk']
    · exact fun hs p hp p' hp' => (List.cons.inj (hs hp hp')).2
  rw [hlen]
  rw [hsub, List.append_assoc, List.append_assoc, List.singleton_append] at hr
  rw [List.append_assoc]
  exact hr

/-- There is one way on, and no room for its byte. -/
theorem loopEnds_full {S : Set (List UInt8)} {c : UInt8} (hne : S.Nonempty)
    (hc : ∀ k ∈ S, ∃ p, k = c :: p) (h : Stored bufsz buf out buf')
    (hfull : bufsz ≤ out.length + 1) (hw : ∃ w, Prefix.IsLongest {p | c :: p ∈ S} w) :
    LoopEnds S bufsz buf out (.ret (-1) buf') := by
  obtain ⟨w, hw⟩ := hw
  refine ⟨c :: w, _, _, Prefix.isLongest_cons hne hc hw, rfl, ?_⟩
  rw [if_neg (by rw [List.length_cons]; omega)]
  exact ⟨rfl, h.outside⟩

theorem Node.keys_of_leaf {n : Node α} (hv : n.v.isSome) (hn : ∀ i, n.child i = .null) :
    [] ∈ n.keys ∧ n.keys.Subsingleton := by
  have hnil : ∀ key ∈ n.keys, key = [] := by
    intro key hkey
    cases key with
    | nil => rfl
    | cons c p =>
        exfalso
        rw [cons_mem_keys, byte, hn] at hkey
        simp [keys, Node.child] at hkey
  exact ⟨nil_mem_keys.2 hv, fun k hk k' hk' => (hnil k hk).trans (hnil k' hk').symm⟩

theorem completeLoop_none {n : Node α} (hnull : n ≠ .null) (bi : ℕ) :
    completeLoop bufsz n none bi buf =
      if (countChildren n).1 > 1 ∨ (countChildren n).1 = 1 ∧ n.v.isSome then
        .ret yltrieBranch (Function.update buf bi 0)
      else if (countChildren n).1 = 0 then
        if n.v.isSome then .ret yltrieLeaf (Function.update buf bi 0) else .assertion
      else completeLoop bufsz (n.child (countChildren n).2) (some (countChildren n).2) bi buf := by
  cases n with
  | null => exact absurd rfl hnull
  | node v f => rfl

/-- The second half of the body, at a node without a value. -/
theorem completeLoop_some {n : Node α} (hnull : n ≠ .null) (hv : n.v = none) (i : Fin 16) (bi : ℕ) :
    completeLoop bufsz n (some i) bi buf =
      if (countChildren n).1 > 1 then .ret yltrieBranch (Function.update buf bi 0)
      else if (countChildren n).1 = 0 then .assertion
      else if bi ≥ bufsz - 1 then .ret (-1) buf
      else completeLoop bufsz (n.child (countChildren n).2) none (bi + 1)
        (Function.update buf bi (join i (countChildren n).2)) := by
  cases n with
  | null => exact absurd rfl hnull
  | node v f =>
      obtain rfl : v = none := hv
      rfl

def LoopSpec (bufsz : ℕ) (n : Node α) : Prop :=
  ∀ (buf buf' : ℕ → UInt8) (out : List UInt8), Stored bufsz buf out buf' → out.length < bufsz →
    LoopEnds n.keys bufsz buf out (completeLoop bufsz n none out.length buf')

/-- The second half of the body, at the only child of a node without a value. -/
theorem loopEnds_back {h : ℕ} {n : Node α} (hn : n.Bounded (2 * h)) (hpruned : n.Pruned)
    (hv : n.v = none) {i : Fin 16} (hi : n.child i ≠ .null)
    (hsingle : ∀ i', n.child i' ≠ .null → i' = i)
    (hnext : ∀ j, (n.child i).child j ≠ .null → LoopSpec bufsz ((n.child i).child j))
    (hstored : Stored bufsz buf out buf') (hlt : out.length < bufsz) :
    LoopEnds n.keys bufsz buf out (completeLoop bufsz (n.child i) (some i) out.length buf') := by
  rw [completeLoop_some hi (hn.v_child hi)]
  rcases count_cases (n.child i) with ⟨-, hnone⟩ | ⟨h1, hj, hjs⟩ | ⟨h2, j, j', hjj, hj, hj'⟩
  · obtain ⟨j, hj⟩ := Node.exists_child (hn.v_child hi) (hpruned.leaf_child hi)
    exact absurd (hnone j) hj
  · generalize (countChildren (n.child i)).2 = j at *
    have hcons : ∀ key ∈ n.keys, ∃ p, key = join i j :: p := fun key hkey =>
      Node.keys_of_single hv hsingle hjs hkey
    obtain ⟨p, hp⟩ := Node.exists_key_join hn hpruned hj
    rw [if_neg (by omega), if_neg (by omega)]
    split
    next hfull =>
      exact loopEnds_full ⟨_, hp⟩ hcons hstored (by omega) (Prefix.exists_isLongest hp)
    next hroom =>
      refine LoopEnds.cons ⟨_, hp⟩ hcons ?_
      have hloop := hnext j hj buf _ _ (hstored.push hlt (join i j)) (by simp; omega)
      rw [List.length_append, List.length_singleton, ← Node.byte_join] at hloop
      rw [← Node.byte_join]
      exact hloop
  · rw [if_pos h2]
    exact loopEnds_branch (Node.branches_back hn hpruned hjj hj hj') hstored hlt

theorem completeLoop_spec (h : ℕ) : ∀ {n : Node α}, n.Bounded (2 * h) → n.Pruned →
    n.isEmptyLeaf = false → n ≠ .null → LoopSpec bufsz n := by
  induction h using Nat.strong_induction_on with
  | _ h ih =>
      intro n hn hpruned hleaf hnull buf buf' out hstored hlt
      rw [completeLoop_none hnull]
      rcases count_cases n with ⟨h0, hnone⟩ | ⟨h1, hi, hsingle⟩ | ⟨h2, i, i', hii, hi, hi'⟩
      · have hv : n.v.isSome := by
          by_contra hv
          obtain ⟨i, hi⟩ := Node.exists_child (Option.not_isSome_iff_eq_none.1 hv) hleaf
          exact hi (hnone i)
        rw [if_neg (by omega), if_pos h0, if_pos hv]
        obtain ⟨hnil, hsub⟩ := Node.keys_of_leaf hv hnone
        exact loopEnds_leaf hnil hsub hstored hlt
      · by_cases hv : n.v.isSome
        · rw [if_pos (Or.inr ⟨h1, hv⟩)]
          exact loopEnds_branch (Node.branches_value hn hpruned hv hi) hstored hlt
        · rw [if_neg (by rintro (h2 | ⟨-, hv'⟩); exacts [by omega, hv hv']), if_neg (by omega)]
          refine loopEnds_back hn hpruned (Option.not_isSome_iff_eq_none.1 hv) hi hsingle ?_
            hstored hlt
          intro j hj
          have hpos := hn.pos hi
          exact ih (h - 1) (by omega) (hn.back _ j) ((hpruned.child _).child j)
            ((hpruned.child _).leaf_child hj) hj
      · rw [if_pos (Or.inl h2)]
        exact loopEnds_branch (Node.branches_child hn hpruned hii hi hi') hstored hlt

end Loop

/-! ### The completion -/

section Completion

variable {es : List (Edit α)} {pre : List UInt8}

/-- What follows the prefix in the stored keys that extend it. -/
def continued (es : List (Edit α)) (pre : List UInt8) : Set (List UInt8) :=
  {key | (contents es (pre ++ key)).isSome}

theorem keys_getNode (es : List (Edit α)) (pre : List UInt8) :
    (getNode (built es).rt pre).keys = continued es pre := by
  ext key
  change ((getNode (built es).rt pre).lookup key).isSome ↔ (contents es (pre ++ key)).isSome
  rw [← Node.lookup_append, ← get_built es, (canonical_built es).1.get]

theorem Node.keys_of_isEmptyLeaf {n : Node α} (h : n.isEmptyLeaf = true) : n.keys = ∅ := by
  refine Set.eq_empty_of_forall_notMem fun key hkey => ?_
  rw [keys, Set.mem_ofPred_eq, lookup_of_isEmptyLeaf h] at hkey
  cases hkey

/-- At an empty leaf the loop runs into its assertion. -/
theorem completeLoop_of_isEmptyLeaf {n : Node α} {bufsz bi : ℕ} {buf : ℕ → UInt8}
    (hnull : n ≠ .null) (h : n.isEmptyLeaf = true) :
    completeLoop bufsz n none bi buf = .assertion := by
  obtain ⟨hv, hnone⟩ := Node.isEmptyLeaf_iff.1 h
  rw [completeLoop_none hnull]
  rcases count_cases n with ⟨h0, -⟩ | ⟨-, hi, -⟩ | ⟨-, i, -, -, hi, -⟩
  · rw [if_neg (by omega), if_pos h0, hv]
    rfl
  · exact absurd (hnone _) hi
  · exact absurd (hnone _) hi

theorem LoopEnds.completed {S : Set (List UInt8)} {bufsz : ℕ} {buf : ℕ → UInt8} {c : Completion}
    (hS : S.Nonempty) (h : LoopEnds S bufsz buf [] c) : Completed S buf bufsz c := by
  obtain ⟨w, r, buf', hw, rfl, hr⟩ := h
  rw [List.length_nil, Nat.zero_add, List.nil_append] at hr
  by_cases hlt : w.length < bufsz
  · rw [if_pos hlt] at hr
    obtain ⟨hstored, hleaf, hbranch⟩ := hr
    refine ⟨r, buf', rfl, hstored.outside, ?_, fun _ => ⟨w, hw, ?_⟩⟩
    · refine iff_of_false ?_ hS.ne_empty
      by_cases hsub : S.Subsingleton
      · rw [hleaf hsub]
        decide
      · rw [hbranch hsub]
        decide
    · have hbytes := hstored.bytes
      rw [List.length_append, List.length_singleton] at hbytes
      rw [if_pos hlt]
      exact ⟨hbytes, hleaf, hbranch⟩
  · rw [if_neg hlt] at hr
    refine ⟨r, buf', rfl, hr.2, ?_, fun _ => ⟨w, hw, ?_⟩⟩
    · exact iff_of_false (by rw [hr.1]; decide) hS.ne_empty
    · rw [if_neg hlt, hr.1]
      decide

/-- A completion is as promised, but for that of the empty prefix in an empty trie. -/
theorem completed_iff (es : List (Edit α)) (pre : List UInt8) (buf : ℕ → UInt8) {bufsz : ℕ}
    (hbufsz : 1 ≤ bufsz) :
    Completed (continued es pre) buf bufsz ((built es).yltrieAutoComplete pre buf bufsz) ↔
      pre ≠ [] ∨ ∃ key, (contents es key).isSome := by
  obtain ⟨-, hroot, hpruned⟩ := canonical_built es
  rw [yltrieAutoComplete, ← keys_getNode]
  by_cases hnull : getNode (built es).rt pre = .null
  · have hpre : pre ≠ [] := by
      rintro rfl
      exact hroot hnull
    have hkeys : (getNode (built es).rt pre).keys = ∅ := by
      rw [hnull]
      exact Node.keys_of_isEmptyLeaf rfl
    rw [if_pos ((Node.isNull_iff _).2 hnull), hkeys]
    refine iff_of_true ⟨yltrieFail, buf, rfl, fun _ _ => rfl, iff_of_true rfl rfl, ?_⟩
      (Or.inl hpre)
    exact fun h => absurd rfl h.ne_empty
  rw [if_neg fun h => hnull ((Node.isNull_iff _).1 h)]
  cases hleaf : (getNode (built es).rt pre).isEmptyLeaf with
  | true =>
      rw [completeLoop_of_isEmptyLeaf hnull hleaf]
      have hkeys := Node.keys_of_isEmptyLeaf hleaf
      have hpre : pre = [] := by
        by_contra hpre
        obtain ⟨p, hp⟩ := Node.exists_lookup (built es).bounded (Nat.mul_mod_right 2 _) hpruned
          hpre hnull
        have hmem : p ∈ (getNode (built es).rt pre).keys := hp
        rw [hkeys] at hmem
        exact hmem
      refine iff_of_false (by rintro ⟨r, buf', h, -⟩; cases h) ?_
      rintro (hne | ⟨key, hkey⟩)
      · exact hne hpre
      · rw [hpre, keys_getNode] at hkeys
        exact (Set.mem_empty_iff_false key).1 (hkeys ▸ hkey)
  | false =>
      have hbounded := (built es).bounded.getNode pre
      rw [← Nat.mul_sub] at hbounded
      obtain ⟨key, hkey⟩ := Node.exists_key hbounded (hpruned.getNode pre) hleaf
      have hstored : Stored bufsz buf [] buf := ⟨rfl, fun _ _ => rfl⟩
      have hloop := completeLoop_spec _ hbounded (hpruned.getNode pre) hleaf hnull buf buf []
        hstored hbufsz
      refine iff_of_true (hloop.completed ⟨key, hkey⟩) (Or.inr ⟨pre ++ key, ?_⟩)
      rw [keys_getNode] at hkey
      exact hkey

/-- The completion of `a` among the names `car` and `cdr`, and the one of `c`. -/
theorem completed_carCdr :
    let es := [.insert [99, 97, 114] (some 5), .insert [99, 100, 114] (some 6)]
    Completed (continued es [97]) (fun _ => 1) 1
        ((built es).yltrieAutoComplete [97] (fun _ => 1) 1) ∧
      Completed (continued es []) (fun _ => 1) 8
        ((built es).yltrieAutoComplete [] (fun _ => 1) 8) := by
  intro es
  exact ⟨(completed_iff es [97] _ (by decide)).2 (.inl (List.cons_ne_nil _ _)),
    (completed_iff es [] _ (by decide)).2 (.inr ⟨[99, 97, 114], rfl⟩)⟩

/-- The completion of the empty prefix in the trie that `yltrie_create` returns. -/
theorem not_completed_create : ¬ Completed (continued ([] : List (Edit ℕ)) []) (fun _ => 1) 8
    ((built ([] : List (Edit ℕ))).yltrieAutoComplete [] (fun _ => 1) 8) := by
  rintro ⟨r, buf', h, -⟩
  rw [show (built ([] : List (Edit ℕ))).yltrieAutoComplete [] (fun _ => 1) 8 = .assertion from rfl]
    at h
  cases h

end Completion

end Trie

end Ylisp
