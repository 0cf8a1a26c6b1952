import Mathlib.Data.List.FinRange
import Mathlib.Data.List.Pairwise
import Ylisp.Trie.Equal
import Ylisp.Trie.Walk

/-!
# The entries of a trie in the order of the walk

`Node.entries` lists the keys below a node with their values, in the order in which
`_walk_internal` visits them: it is the increasing order of the bytes
(`Node.entries_sorted`). A walk from a prefix offers the entries below the node of the
prefix to the callback, up to the first one that it refuses (`yltrieWalk_eq`).
-/

namespace Ylisp

namespace Trie

def join (i j : Fin 16) : UInt8 := UInt8.ofNat (i.val * 16 + j.val)

theorem toNat_join (i j : Fin 16) : (join i j).toNat = i.val * 16 + j.val := by
  rw [join, UInt8.toNat_ofNat']
  omega

@[simp] theorem front_join (i j : Fin 16) : front (join i j) = i := by
  apply Fin.ext
  change (join i j).toNat / 16 = i.val
  rw [toNat_join]
  omega

@[simp] theorem back_join (i j : Fin 16) : back (join i j) = j := by
  apply Fin.ext
  change (join i j).toNat % 16 = j.val
  rw [toNat_join]
  omega

section Order

variable {β : Type*} [LT β]

theorem append_cons_lt {a b : β} (h : a < b) : ∀ l p q : List β, l ++ a :: p < l ++ b :: q
  | [], _, _ => List.Lex.rel h
  | _ :: l, p, q => List.Lex.cons (append_cons_lt h l p q)

theorem lt_append_cons (a : β) (p : List β) : ∀ l : List β, l < l ++ a :: p
  | [] => List.Lex.nil
  | _ :: l => List.Lex.cons (lt_append_cons a p l)

end Order

namespace Node

variable {α : Type*}

@[simp] theorem length_nibbles (key : List UInt8) : (nibbles key).length = 2 * key.length := by
  induction key with
  | nil => rfl
  | cons c key ih =>
      change (nibbles key).length + 1 + 1 = _
      rw [ih, List.length_cons]
      omega

theorem nibbles_append (key p : List UInt8) : nibbles (key ++ p) = nibbles key ++ nibbles p :=
  List.flatMap_append

theorem nibbles_join (i j : Fin 16) : nibbles [join i j] = [i, j] := by
  simp [nibbles]

theorem nibbles_injective : Function.Injective nibbles := by
  intro key
  induction key with
  | nil =>
      intro key' h
      cases key' with
      | nil => rfl
      | cons c' key' => cases h
  | cons c key ih =>
      intro key' h
      cases key' with
      | nil => cases h
      | cons c' key' =>
          obtain ⟨hf, h⟩ := List.cons.inj h
          obtain ⟨hb, h⟩ := List.cons.inj h
          rw [front_back_injective hf hb, ih h]

/-- The order of the bytes is the order of their halves. -/
theorem lt_of_nibbles_lt : ∀ {key key' : List UInt8}, nibbles key < nibbles key' → key < key'
  | [], [], h => by cases h
  | [], _ :: _, _ => List.Lex.nil
  | _ :: _, [], h => by cases h
  | c :: key, c' :: key', h => by
      change front c :: back c :: nibbles key < front c' :: back c' :: nibbles key' at h
      rw [List.cons_lt_cons_iff, List.cons_lt_cons_iff] at h
      rw [List.cons_lt_cons_iff]
      rcases h with hf | ⟨hf, hb | ⟨hb, h⟩⟩
      · have hlt : c.toNat / 16 < c'.toNat / 16 := hf
        exact Or.inl (UInt8.lt_iff_toNat_lt.2 (by omega))
      · have heq : c.toNat / 16 = c'.toNat / 16 := congrArg Fin.val hf
        have hlt : c.toNat % 16 < c'.toNat % 16 := hb
        exact Or.inl (UInt8.lt_iff_toNat_lt.2 (by omega))
      · exact Or.inr ⟨front_back_injective hf hb, lt_of_nibbles_lt h⟩

/-- The entries below a node. The bytes `key` lead to it, and for the node of half a byte
also the front half `hi`. -/
def entries : Node α → List UInt8 → Option (Fin 16) → List (List UInt8 × α)
  | null, _, _ => []
  | node v n, key, none =>
      (v.toList.map fun x => (key, x)) ++
        (List.finRange 16).flatMap fun i => (n i).entries key (some i)
  | node _ n, key, some i =>
      (List.finRange 16).flatMap fun j => (n j).entries (key ++ [join i j]) none

theorem mem_entries_iff : ∀ {n : Node α} {key k : List UInt8} {hi : Option (Fin 16)} {x : α},
    (k, x) ∈ n.entries key hi ↔
      ∃ q, nibbles k = nibbles key ++ hi.toList ++ q ∧ n.valueAt q = some x
  | null, key, k, hi, x => by simp [entries, valueAt_null]
  | node v n, key, k, none, x => by
      simp only [entries, List.mem_append, List.mem_map, Option.mem_toList, List.mem_flatMap,
        List.mem_finRange, true_and, mem_entries_iff, Prod.mk.injEq]
      constructor
      · rintro (⟨y, hy, rfl, rfl⟩ | ⟨i, q, hk, hq⟩)
        · exact ⟨[], by simp, hy⟩
        · exact ⟨i :: q, by simp [hk], hq⟩
      · rintro ⟨q, hk, hq⟩
        cases q with
        | nil => exact Or.inl ⟨x, hq, nibbles_injective (by simpa using hk.symm), rfl⟩
        | cons i q => exact Or.inr ⟨i, q, by simp [hk], hq⟩
  | node v n, key, k, some i, x => by
      simp only [entries, List.mem_flatMap, List.mem_finRange, true_and, mem_entries_iff,
        nibbles_append, nibbles_join]
      constructor
      · rintro ⟨j, q, hk, hq⟩
        exact ⟨j :: q, by simp [hk], hq⟩
      · rintro ⟨q, hk, hq⟩
        cases q with
        | nil =>
            have hlen := congrArg List.length hk
            simp at hlen
            omega
        | cons j q => exact ⟨j, q, by simp [hk], hq⟩

/-- The entries come in the increasing order of their keys. -/
theorem entries_sorted : ∀ (n : Node α) (key : List UInt8) (hi : Option (Fin 16)),
    (n.entries key hi).Pairwise fun e e' => e.1 < e'.1
  | null, key, hi => List.Pairwise.nil
  | node v n, key, none => by
      refine List.pairwise_append.2 ⟨?_, List.pairwise_flatMap.2 ⟨fun i _ => ?_, ?_⟩, ?_⟩
      · cases v with
        | none => exact List.Pairwise.nil
        | some x => exact List.pairwise_singleton _ _
      · exact entries_sorted (n i) key (some i)
      · refine (List.pairwise_lt_finRange 16).imp fun {i i'} hlt e he e' he' => ?_
        obtain ⟨q, hk, -⟩ := mem_entries_iff.1 he
        obtain ⟨q', hk', -⟩ := mem_entries_iff.1 he'
        apply lt_of_nibbles_lt
        rw [hk, hk', List.append_assoc, List.append_assoc]
        exact append_cons_lt hlt _ _ _
      · intro e he e' he'
        obtain ⟨x, -, rfl⟩ := List.mem_map.1 he
        obtain ⟨i, -, hi⟩ := List.mem_flatMap.1 he'
        obtain ⟨q, hk, -⟩ := mem_entries_iff.1 hi
        apply lt_of_nibbles_lt
        rw [hk, List.append_assoc]
        exact lt_append_cons _ _ _
  | node v n, key, some i => by
      refine List.pairwise_flatMap.2 ⟨fun j _ => entries_sorted (n j) _ none, ?_⟩
      refine (List.pairwise_lt_finRange 16).imp fun {j j'} hlt e he e' he' => ?_
      obtain ⟨q, hk, -⟩ := mem_entries_iff.1 he
      obtain ⟨q', hk', -⟩ := mem_entries_iff.1 he'
      apply lt_of_nibbles_lt
      rw [hk, hk', nibbles_append, nibbles_append, nibbles_join, nibbles_join]
      simpa using append_cons_lt hlt (nibbles key ++ [i]) q q'

theorem getNode_append (n : Node α) : ∀ key p : List UInt8,
    getNode n (key ++ p) = getNode (getNode n key) p
  | [], _ => rfl
  | c :: key, p => getNode_append (n.byte c) key p

theorem lookup_append (n : Node α) (key p : List UInt8) :
    n.lookup (key ++ p) = (getNode n key).lookup p := by
  rw [lookup, getNode_append, lookup]

theorem Bounded.getNode : ∀ {n : Node α} {k : ℕ} (key : List UInt8), n.Bounded k →
    (getNode n key).Bounded (k - 2 * key.length)
  | _, _, [], h => h
  | n, k, c :: key, h => by
      have hlen : k - 2 * (c :: key).length = k - 1 - 1 - 2 * key.length := by
        rw [List.length_cons]
        omega
      rw [hlen]
      exact (h.byte c).getNode key

/-- Below a node of a byte, the entries are the keys with their values. -/
theorem mem_entries {n : Node α} {key : List UInt8} {x : α} :
    (key, x) ∈ n.entries [] none ↔ n.lookup key = some x := by
  rw [mem_entries_iff, ← valueAt_nibbles]
  constructor
  · rintro ⟨q, hq, hx⟩
    rw [hq]
    exact hx
  · exact fun hx => ⟨nibbles key, rfl, hx⟩

theorem Pruned.getNode : ∀ {n : Node α} (key : List UInt8), n.Pruned → (getNode n key).Pruned
  | _, [], h => h
  | _, c :: key, h => (h.byte c).getNode key

end Node

/-! ### The walk -/

section Walk

variable {σ α : Type*} (cb : σ → List UInt8 → α → σ × Bool)

/-- Entries offered to a callback one after the other, until it answers to stop. -/
def offer : List (List UInt8 × α) → σ → σ × ℤ
  | [], s => (s, 1)
  | e :: es, s =>
      let r := cb s e.1 e.2
      if r.2 then offer es r.1 else (r.1, 0)

variable {cb}

theorem offer_append (es' : List (List UInt8 × α)) : ∀ (es : List (List UInt8 × α)) (s : σ),
    offer cb (es ++ es') s =
      if (offer cb es s).2 ≤ 0 then offer cb es s else offer cb es' (offer cb es s).1
  | [], s => rfl
  | e :: es, s => by
      rw [List.cons_append, offer, offer]
      split
      · exact offer_append es' es _
      · rfl

/-- The children are offered one after the other, if each leaves the buffer such that the next
one finds what it needs there. -/
theorem walkChildren_eq_offer {bsz bitoffset : ℕ} {n : Fin 16 → Node α}
    {walk : Fin 16 → (ℕ → UInt8) → σ → (ℕ → UInt8) × σ × ℤ} {P : (ℕ → UInt8) → Prop}
    (es : Fin 16 → List (List UInt8 × α)) (hnull : ∀ i, (n i).isNull = true → es i = [])
    (hbuf : ∀ i, (n i).isNull = false → bitoffset / 8 ≠ bsz)
    (hwalk : ∀ i buf s, (n i).isNull = false → P buf →
      (walk i (setNibble buf bitoffset i) s).2 = offer cb (es i) s)
    (hkept : ∀ i buf s, P buf → P (walk i (setNibble buf bitoffset i) s).1) :
    ∀ (is : List (Fin 16)) (buf : ℕ → UInt8) (s : σ), P buf →
      (walkChildren bsz n walk bitoffset is buf s).2 = offer cb (is.flatMap es) s
  | [], _, _, _ => rfl
  | i :: is, buf, s, hP => by
      have ih := walkChildren_eq_offer es hnull hbuf hwalk hkept is
      rw [List.flatMap_cons, walkChildren]
      cases hi : (n i).isNull with
      | true => rw [if_pos rfl, hnull i hi, List.nil_append, ih buf s hP]
      | false =>
          rw [if_neg (by decide), if_neg (hbuf i hi), offer_append, ← hwalk i buf s hi hP]
          dsimp only
          split
          · rfl
          · exact ih _ _ (hkept i buf s hP)

/-- The bytes of the key are in the buffer, and so is the front half of the next one. -/
def Written (buf : ℕ → UInt8) (key : List UInt8) (hi : Option (Fin 16)) : Prop :=
  (List.range key.length).map buf = key ∧
    ∀ i ∈ hi, buf key.length &&& 0xf0 = UInt8.ofNat (i.val * 16)

theorem Written.kept {buf buf' : ℕ → UInt8} {key : List UInt8} {hi : Option (Fin 16)}
    (h : Written buf key hi) (hkept : Kept (8 * key.length + 4 * hi.toList.length) buf buf') :
    Written buf' key hi := by
  have hlen : hi.toList.length ≤ 1 := by cases hi <;> simp
  have hoffset : (8 * key.length + 4 * hi.toList.length) / 8 = key.length := by omega
  refine ⟨(List.map_congr_left fun j hj => ?_).trans h.1, fun i hi' => ?_⟩
  · have hlt := List.mem_range.1 hj
    exact hkept.byte j (by omega)
  · have hhalf := hkept.half (by rw [Option.mem_def.1 hi', Option.toList_some]; simp)
    rw [hoffset] at hhalf
    exact hhalf.trans (h.2 i hi')

theorem map_setNibble {buf : ℕ → UInt8} {key : List UInt8} {bitoffset : ℕ}
    (h : (List.range key.length).map buf = key) (hoffset : bitoffset / 8 = key.length)
    (i : Fin 16) : (List.range key.length).map (setNibble buf bitoffset i) = key := by
  refine Eq.trans (List.map_congr_left fun j hj => ?_) h
  have hlt := List.mem_range.1 hj
  exact Function.update_of_ne (by omega) _ _

theorem Written.front {buf : ℕ → UInt8} {key : List UInt8} (h : Written buf key none)
    (i : Fin 16) : Written (setNibble buf (8 * key.length) i) key (some i) := by
  have hoffset : 8 * key.length / 8 = key.length := by omega
  have hmask : ∀ i : Fin 16, UInt8.ofNat (i.val * 16) &&& 0xf0 = UInt8.ofNat (i.val * 16) := by
    decide
  refine ⟨map_setNibble h.1 hoffset i, fun i' hi' => ?_⟩
  rw [← Option.some.inj hi', setNibble, hoffset, Function.update_self, if_pos (by omega), hmask]

theorem front_or_back : ∀ i j : Fin 16,
    UInt8.ofNat (i.val * 16) ||| UInt8.ofNat j.val = join i j := by
  decide

theorem Written.back {buf : ℕ → UInt8} {key : List UInt8} {i : Fin 16}
    (h : Written buf key (some i)) (j : Fin 16) :
    Written (setNibble buf (8 * key.length + 4) j) (key ++ [join i j]) none := by
  have hoffset : (8 * key.length + 4) / 8 = key.length := by omega
  refine ⟨?_, nofun⟩
  rw [List.length_append, List.length_singleton, List.range_succ, List.map_append,
    map_setNibble h.1 hoffset j]
  simp only [List.map_cons, List.map_nil]
  rw [setNibble, hoffset, Function.update_self, if_neg (by omega), h.2 i rfl, front_or_back]

/-- What is written is still there after the walk of a child. -/
theorem Written.walked (cb : σ → List UInt8 → α → σ × Bool) (bsz : ℕ) (n : Node α)
    {buf : ℕ → UInt8} {key : List UInt8} {hi : Option (Fin 16)} (h : Written buf key hi)
    (i : Fin 16) (s : σ) :
    Written (walkInternal cb bsz n (setNibble buf (8 * key.length + 4 * hi.toList.length) i)
      (8 * key.length + 4 * hi.toList.length + 4) s).1 key hi := by
  have hwalk := kept_walkInternal cb bsz n
    (setNibble buf (8 * key.length + 4 * hi.toList.length) i)
    (8 * key.length + 4 * hi.toList.length + 4) s (by omega)
  exact h.kept ((kept_setNibble _ buf i).trans (hwalk.parent (by omega)))

theorem walkInternal_eq_offer (bsz : ℕ) : ∀ (n : Node α) (k : ℕ) (buf : ℕ → UInt8)
    (key : List UInt8) (hi : Option (Fin 16)) (s : σ), n.Bounded k → Written buf key hi →
      (hi.toList.length + k) % 2 = 0 → 2 * key.length + hi.toList.length + k < 2 * bsz →
        (walkInternal cb bsz n buf (8 * key.length + 4 * hi.toList.length) s).2 =
          offer cb (n.entries key hi) s
  | .null, _, _, _, _, _, _, _, _, _ => rfl
  | .node v n, k, buf, key, none, s, hn, hbuf, heven, hlt => by
      simp only [Option.toList_none, List.length_nil] at heven hlt ⊢
      have hchildren : ∀ s', (walkChildren bsz n
          (fun i buf' s' => walkInternal cb bsz (n i) buf' (8 * key.length + 4 * 0 + 4) s')
          (8 * key.length + 4 * 0) (List.finRange 16) buf s').2 =
            offer cb ((List.finRange 16).flatMap fun i => (n i).entries key (some i)) s' := by
        intro s'
        refine walkChildren_eq_offer (P := fun buf => Written buf key none) _ ?_ ?_ ?_ ?_ _ buf s'
          hbuf
        · intro i hi
          rw [(Node.isNull_iff _).1 hi]
          rfl
        · intro i _
          omega
        · intro i buf s' hi hbuf
          obtain ⟨hk, hbelow⟩ := hn.2 i hi
          exact walkInternal_eq_offer bsz (n i) (k - 1) _ key (some i) s' hbelow (hbuf.front i)
            (by simp; omega) (by simp; omega)
        · intro i buf s' hbuf
          exact hbuf.walked cb bsz (n i) i s'
      have hkey : (List.range ((8 * key.length + 4 * 0) / 8)).map buf = key := by
        rw [show (8 * key.length + 4 * 0) / 8 = key.length by omega]
        exact hbuf.1
      cases v with
      | none => exact hchildren s
      | some x =>
          rw [walkInternal, hkey, apply_ite Prod.snd, hchildren]
          rfl
  | .node v n, k, buf, key, some i, s, hn, hbuf, heven, hlt => by
      simp only [Option.toList_some, List.length_singleton] at heven hlt ⊢
      have hv : v = none := by
        cases v with
        | none => rfl
        | some x =>
            have hk := hn.1 rfl
            omega
      subst hv
      rw [walkInternal]
      refine walkChildren_eq_offer (P := fun buf => Written buf key (some i)) _ ?_ ?_ ?_ ?_ _ buf s
        hbuf
      · intro j hj
        rw [(Node.isNull_iff _).1 hj]
        rfl
      · intro j hj
        omega
      · intro j buf s' hj hbuf
        obtain ⟨hk, hbelow⟩ := hn.2 j hj
        have hlen : (key ++ [join i j]).length = key.length + 1 := List.length_append
        have ih := walkInternal_eq_offer bsz (n j) (k - 1)
          (setNibble buf (8 * key.length + 4) j) (key ++ [join i j]) none s' hbelow (hbuf.back j)
          (by simp only [Option.toList_none, List.length_nil]; omega)
          (by simp only [Option.toList_none, List.length_nil]; omega)
        rw [← ih, hlen]
        rfl
      · intro j buf s' hbuf
        exact hbuf.walked cb bsz (n j) j s'

end Walk

section Prefix

variable {σ α : Type*}

/-- `yltrie_walk`, whose buffer holds anything at its start. -/
def yltrieWalk (t : Trie α) (pre : List UInt8) (buf : ℕ → UInt8)
    (cb : σ → List UInt8 → α → σ × Bool) (s : σ) : σ × ℤ :=
  let n := getNode t.rt pre
  if n.isNull then (s, -1) else (walkInternal cb maxKeyLen n buf 0 s).2

def continuations (t : Trie α) (pre : List UInt8) : List (List UInt8 × α) :=
  (getNode t.rt pre).entries [] none

theorem mem_continuations {t : Trie α} (ht : Rooted t) {pre key : List UInt8} {x : α} :
    (key, x) ∈ t.continuations pre ↔ t.yltrieGet (pre ++ key) = some x := by
  rw [continuations, Node.mem_entries, ← Node.lookup_append, ht.get]

theorem continuations_sorted (t : Trie α) (pre : List UInt8) :
    (t.continuations pre).Pairwise fun e e' => e.1 < e'.1 :=
  Node.entries_sorted _ _ _

/-- A walk offers the continuations of the prefix in the order of their bytes. -/
theorem yltrieWalk_eq (t : Trie α) (pre : List UInt8) (buf : ℕ → UInt8)
    (cb : σ → List UInt8 → α → σ × Bool) (s : σ) :
    t.yltrieWalk pre buf cb s =
      if (getNode t.rt pre).isNull then (s, -1) else offer cb (t.continuations pre) s := by
  have hbounded := t.bounded.getNode pre
  rw [yltrieWalk, continuations]
  split
  · rfl
  · refine walkInternal_eq_offer _ _ _ buf [] none s hbounded ⟨rfl, nofun⟩ ?_ ?_
    · simp only [Option.toList_none, List.length_nil]
      omega
    · simp only [maxKeyLen, Option.toList_none, List.length_nil]
      omega

/-- A node that a key leads to has a value at it or below it. -/
theorem Node.exists_lookup {n : Node α} {k : ℕ} (hn : n.Bounded k) (hk : k % 2 = 0)
    (hpruned : n.Pruned) {key : List UInt8} (hkey : key ≠ []) (hnode : getNode n key ≠ .null) :
    ∃ p, ((getNode n key).lookup p).isSome := by
  obtain ⟨pre, c, rfl⟩ := (List.eq_nil_or_concat key).resolve_left hkey
  rw [List.concat_eq_append, Node.getNode_append] at hnode
  obtain ⟨q, hq⟩ := ((hpruned.getNode pre).child (front c)).exists_valueAt hnode
  have hbelow := hn.getNode (pre ++ [c])
  rw [Node.getNode_append] at hbelow
  obtain ⟨hle, heven⟩ := hbelow.even_of_valueAt hq
  obtain ⟨p, rfl⟩ := Node.exists_nibbles q (by omega)
  rw [Node.valueAt_nibbles] at hq
  refine ⟨p, ?_⟩
  rw [List.concat_eq_append, Node.getNode_append]
  exact hq

/-- The walk fails on a prefix of no key, but for the empty one, which leads to the root
node of the trie. -/
theorem isNull_iff_continuations {t : Trie α} (ht : Canonical t) (pre : List UInt8) :
    (getNode t.rt pre).isNull = true ↔ pre ≠ [] ∧ t.continuations pre = [] := by
  rw [Node.isNull_iff]
  constructor
  · intro hnull
    refine ⟨?_, by rw [continuations, hnull]; rfl⟩
    rintro rfl
    exact ht.2.1 hnull
  · rintro ⟨hpre, hnil⟩
    by_contra hnode
    obtain ⟨p, hp⟩ := Node.exists_lookup t.bounded (Nat.mul_mod_right 2 _) ht.2.2 hpre hnode
    obtain ⟨x, hx⟩ := Option.isSome_iff_exists.1 hp
    have hmem : (p, x) ∈ t.continuations pre := Node.mem_entries.2 hx
    rw [hnil] at hmem
    cases hmem

end Prefix

end Trie

end Ylisp
