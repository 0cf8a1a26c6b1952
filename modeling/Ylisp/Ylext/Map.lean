import Ylisp.Hash.Refine
import Ylisp.Mempool.Element
import Ylisp.Trie.Lookup

/-!
# Maps

The natives `map+`, `map-` and `map*` of `nfunc_map.c`, over the two data structures
behind `struct _amapif`. A trie refuses the empty key and keys of `maxKeyLen` bytes and
more; a hash table takes them all. On the keys that a trie takes, a map that started as an
empty trie and one that started as an empty hash table answer alike (`alike_of_fits`).
A hash table that is to have more buckets than `_hmapsz` can count has no answer.

The assertions are off, as in a build without `CONFIG_ASSERT`: `_ndestroy` asserts that no
node has the empty key.
-/

namespace Ylisp

namespace Ylext

open Mempool

variable {n : ℕ} (crc32 : List UInt8 → UInt32)

/-! ### `struct _amapif` -/

/-- `insert`: `yltrie_insert` or `hash_add`. -/
def amapInsert (d : Amap n) (key : List UInt8) (v : Ref n) : Option (ℤ × Amap n) :=
  match d with
  | .trie t => some ((t.yltrieInsert key v).1, .trie (t.yltrieInsert key v).2)
  | .hash h => (h.hashAdd crc32 key v).map fun r => (r.1, .hash r.2)

/-- `delete`: `yltrie_delete` or `hash_del`. -/
def amapDelete (d : Amap n) (key : List UInt8) : Option (ℤ × Amap n) :=
  match d with
  | .trie t => some ((t.yltrieDelete key).1, .trie (t.yltrieDelete key).2)
  | .hash h => (h.hashDel crc32 key).map fun r => (r.1, .hash r.2)

/-- `get`: `yltrie_get` or `hash_get`. -/
def amapGet (d : Amap n) (key : List UInt8) : Option (Ref n) :=
  match d with
  | .trie t => t.yltrieGet key
  | .hash h => h.hashGet crc32 key

/-! ### The natives -/

/-- What a native comes to: `ylnfinterp_fail`, or a value. -/
inductive Outcome (n : ℕ) where
  | fail
  | val (e : Ref n)
  deriving DecidableEq

def mapInsert (d : Amap n) (key : List UInt8) (v : Ref n) : Option (Outcome n × Amap n) :=
  (amapInsert crc32 d key v).map fun r =>
    (if r.1 = -1 then .fail else if r.1 = 1 then .val (.stat .t) else .val (.stat .nil), r.2)

def mapDel (d : Amap n) (key : List UInt8) : Option (Outcome n × Amap n) :=
  (amapDelete crc32 d key).map fun r =>
    (if 0 > r.1 then .val (.stat .nil) else .val (.stat .t), r.2)

def mapGet (d : Amap n) (key : List UInt8) : Outcome n :=
  match amapGet crc32 d key with
  | some v => .val v
  | none => .val (.stat .nil)

def Taken (key : List UInt8) : Prop := key ≠ [] ∧ key.length < Trie.maxKeyLen

inductive MapCall (n : ℕ) where
  | insert (key : List UInt8) (v : Ref n)
  | del (key : List UInt8)
  | get (key : List UInt8)

namespace MapCall

def key : MapCall n → List UInt8
  | insert key _ => key
  | del key => key
  | get key => key

def call (c : MapCall n) (d : Amap n) : Option (Outcome n × Amap n) :=
  match c with
  | insert key v => mapInsert crc32 d key v
  | del key => mapDel crc32 d key
  | get key => some (mapGet crc32 d key, d)

def refused : MapCall n → Outcome n
  | insert _ _ => .fail
  | del _ => .val (.stat .nil)
  | get _ => .val (.stat .nil)

/-- An insertion finds at most `2 ^ 30` other keys in the hash table. -/
def Fits (c : MapCall n) (d : Amap n) : Prop :=
  match c, d with
  | insert key _, .hash h =>
      h.sz ≤ 2 ^ 30 ∨ (h.sz = 2 ^ 30 + 1 ∧ (h.hashGet crc32 key).isSome)
  | _, _ => True

end MapCall

open MapCall

/-- The calls have the same outcome on the two maps, but for the keys that a trie
refuses: these calls leave the trie alone. -/
def Alike : List (MapCall n) → Amap n → Amap n → Prop
  | [], _, _ => True
  | c :: cs, d, d' =>
      ∃ r r', c.call crc32 d = some r ∧ c.call crc32 d' = some r' ∧
        (Taken c.key → r.1 = r'.1) ∧ (¬ Taken c.key → r = (c.refused, d)) ∧ Alike cs r.2 r'.2

section Alike

variable {crc32}

/-- A trie and a hash table with the same entries, as far as a trie can have them. -/
structure Same (crc32 : List UInt8 → UInt32) (t : Trie (Ref n)) (h : Hash (Ref n)) : Prop where
  rooted : t.Rooted
  table : Hash.Table crc32 h
  get : ∀ key, Taken key → t.yltrieGet key = h.hashGet crc32 key

theorem get_of_refused (t : Trie (Ref n)) {key : List UInt8}
    (hkey : ¬ Taken key) : t.yltrieGet key = none := by
  rcases Classical.not_and_iff_not_or_not.1 hkey with hnil | hlen
  · rw [Classical.not_not.1 hnil]
    rfl
  · rw [← Option.not_isSome_iff_eq_none]
    exact fun h => hlen (Trie.length_of_get h)

theorem insert_of_refused (t : Trie (Ref n)) {key : List UInt8}
    (hkey : ¬ Taken key) (v : Ref n) :
    t.yltrieInsert key v = (-1, t) := by
  have h := Trie.get_insertPtr t key (some v)
  rw [if_neg] at h
  · exact h
  · rintro ⟨hpos, hle, -⟩
    exact hkey ⟨List.ne_nil_of_length_pos hpos, Nat.lt_succ_of_le hle⟩

theorem call_of_refused (c : MapCall n) {t : Trie (Ref n)} (ht : t.Rooted) (hc : ¬ Taken c.key) :
    c.call crc32 (.trie t) = some (c.refused, .trie t) := by
  cases c with
  | insert key v =>
      change ¬ Taken key at hc
      rw [call, mapInsert, amapInsert, insert_of_refused t hc v]
      rfl
  | del key =>
      change ¬ Taken key at hc
      have hdel := Trie.get_yltrieDelete ht key
      rw [get_of_refused t hc, if_neg (by simp)] at hdel
      rw [call, mapDel, amapDelete, hdel]
      rfl
  | get key =>
      change ¬ Taken key at hc
      rw [call, mapGet, amapGet, get_of_refused t hc]
      rfl

theorem call_insert {h h' : Hash (Ref n)} {key : List UInt8} {v : Ref n} {r : ℤ}
    (hadd : h.hashAdd crc32 key v = some (r, h')) : (insert key v).call crc32 (.hash h) =
      some (if r = -1 then .fail else if r = 1 then .val (.stat .t) else .val (.stat .nil),
        .hash h') := by
  rw [call, mapInsert, amapInsert, hadd]
  rfl

theorem call_del {h h' : Hash (Ref n)} {key : List UInt8} {r : ℤ}
    (hdel : h.hashDel crc32 key = some (r, h')) : (del key).call crc32 (.hash h) =
      some (if 0 > r then .val (.stat .nil) else .val (.stat .t), .hash h') := by
  rw [call, mapDel, amapDelete, hdel]
  rfl

theorem Same.update {t t' : Trie (Ref n)} {h h' : Hash (Ref n)} (hs : Same crc32 t h)
    (ht' : t'.Rooted) (hh' : Hash.Table crc32 h') {key : List UInt8} {v : Option (Ref n)}
    (hget : t'.yltrieGet = Function.update t.yltrieGet key v)
    (hget' : h'.hashGet crc32 = Function.update (h.hashGet crc32) key v) : Same crc32 t' h' := by
  refine ⟨ht', hh', fun k hk => ?_⟩
  rw [hget, hget', Function.update_apply, Function.update_apply, hs.get k hk]

/-- A call with a key that the trie refuses changes the hash table at this key only. -/
theorem Same.update_refused {t : Trie (Ref n)} {h h' : Hash (Ref n)} (hs : Same crc32 t h)
    (hh' : Hash.Table crc32 h') {key : List UInt8} {v : Option (Ref n)}
    (hkey : ¬ Taken key)
    (hget' : h'.hashGet crc32 = Function.update (h.hashGet crc32) key v) : Same crc32 t h' := by
  refine ⟨hs.rooted, hh', fun k hk => ?_⟩
  rw [hget', Function.update_of_ne, hs.get k hk]
  rintro rfl
  exact hkey hk

/-- A call keeps the two maps the same, and tells them apart by a refused key only. -/
theorem same_call (c : MapCall n) {t : Trie (Ref n)} {h : Hash (Ref n)} (hs : Same crc32 t h)
    (hfits : c.Fits crc32 (.hash h)) :
    ∃ o t' o' h', c.call crc32 (.trie t) = some (o, .trie t') ∧
      c.call crc32 (.hash h) = some (o', .hash h') ∧ (Taken c.key → o = o') ∧
        Same crc32 t' h' := by
  cases c with
  | insert key v =>
      obtain ⟨h', hadd, htable, -, hget'⟩ := hs.table.hashAdd key v hfits
      have hcall := call_insert (n := n) hadd
      by_cases hc : Taken key
      · obtain ⟨hcode, hget⟩ := Trie.get_yltrieInsert t hc.1 hc.2 v
        have hrooted := Trie.rooted_insertPtr hs.rooted key (some v)
        refine ⟨_, _, _, _, rfl, hcall, fun _ => ?_, hs.update hrooted htable hget hget'⟩
        simp only [hcode, hs.get key hc]
      · exact ⟨_, t, _, _, call_of_refused (insert key v) hs.rooted hc, hcall,
          fun h => absurd h hc, hs.update_refused htable hc hget'⟩
  | del key =>
      obtain ⟨h', hdel, htable, -, -, hget'⟩ := hs.table.hashDel key
      obtain ⟨hcode, hget⟩ := Trie.yltrieDelete_spec hs.rooted key
      have hrooted := Trie.rooted_yltrieDelete hs.rooted key
      refine ⟨_, _, _, _, rfl, call_del hdel, fun hc => ?_, hs.update hrooted htable hget hget'⟩
      simp only [hcode, hs.get key hc]
  | get key =>
      refine ⟨_, t, _, h, rfl, rfl, fun hc => ?_, hs⟩
      simp only [mapGet, amapGet, hs.get key hc]

theorem alike_of_same : ∀ (cs : List (MapCall n)) {t : Trie (Ref n)} {h : Hash (Ref n)},
    Same crc32 t h → Answer.AllTried (Fits crc32) (call crc32) cs (.hash h) →
      Alike crc32 cs (.trie t) (.hash h)
  | [], _, _, _, _ => trivial
  | c :: cs, t, h, hs, hfits => by
      obtain ⟨o, t', o', h', hcall, hcall', hsame, hs'⟩ := same_call c hs hfits.1
      refine ⟨_, _, hcall, hcall', hsame, fun hc => ?_, alike_of_same cs hs' (hfits.2 _ hcall')⟩
      exact Option.some.inj (hcall.symm.trans (call_of_refused c hs.rooted hc))

theorem same_create : Same crc32 (Trie.yltrieCreate : Trie (Ref n)) Hash.hashCreate where
  rooted := Trie.rooted_yltrieCreate
  table := Hash.table_hashCreate
  get key _ := by
    rw [Trie.get_yltrieCreate, Hash.table_hashCreate.hashGet_of_absent]
    rw [Hash.nodes_hashCreate]
    exact List.not_mem_nil

end Alike

/-- The same calls on a new trie map and on a new hash map have the same outcomes, as
long as the hash table has room, but for the keys that a trie refuses. -/
theorem alike_of_fits (cs : List (MapCall n))
    (hfits : Answer.AllTried (Fits crc32) (call crc32) cs (.hash Hash.hashCreate)) :
    Alike crc32 cs (.trie Trie.yltrieCreate) (.hash Hash.hashCreate) :=
  alike_of_same cs same_create hfits

/-- A value is stored, overwritten, read back and deleted on both. -/
def sampleCalls : List (MapCall 0) :=
  [.insert [1] (.stat .t), .insert [1] (.stat .nil), .get [1], .insert [] (.stat .t), .del [1]]

theorem allTried_of_length {crc32 : List UInt8 → UInt32} : ∀ {cs : List (MapCall n)}
    {h : Hash (Ref n)}, Hash.Table crc32 h → h.sz + cs.length ≤ 2 ^ 30 + 1 →
      Answer.AllTried (Fits crc32) (call crc32) cs (.hash h)
  | [], _, _, _ => trivial
  | c :: cs, h, ht, hlen => by
      rw [List.length_cons] at hlen
      cases c with
      | insert key v =>
          have hfits : h.sz ≤ 2 ^ 30 := by omega
          obtain ⟨h', hadd, htable, hle, -⟩ := ht.hashAdd key v (Or.inl hfits)
          refine ⟨Or.inl hfits, fun r hr => ?_⟩
          cases hr.symm.trans (call_insert hadd)
          exact allTried_of_length htable (by omega)
      | del key =>
          obtain ⟨h', hdel, htable, -, hsz, -⟩ := ht.hashDel key
          refine ⟨trivial, fun r hr => ?_⟩
          cases hr.symm.trans (call_del hdel)
          exact allTried_of_length htable (by omega)
      | get key =>
          refine ⟨trivial, fun r hr => ?_⟩
          cases hr
          exact allTried_of_length ht (by omega)

theorem alike_of_fits_sample :
    Alike Hash.crcSample sampleCalls (.trie Trie.yltrieCreate) (.hash Hash.hashCreate) :=
  alike_of_fits Hash.crcSample sampleCalls
    (allTried_of_length Hash.table_hashCreate (by decide))

/-- The outcomes of the calls on a map that starts as `d`, as far as they have one. -/
def outcomes : List (MapCall n) → Amap n → List (Option (Outcome n))
  | [], _ => []
  | c :: cs, d =>
      match c.call crc32 d with
      | some r => some r.1 :: outcomes cs r.2
      | none => [none]

/-- The shortest key that is too long for a trie. -/
def longKey : List UInt8 := List.replicate Trie.maxKeyLen 97

theorem not_taken_longKey : ¬ Taken longKey := by
  rintro ⟨-, hlen⟩
  rw [longKey, List.length_replicate] at hlen
  exact Nat.lt_irrefl _ hlen

/-- The trie map fails on the key, and the hash map stores the value. -/
theorem outcomes_differ :
    outcomes Hash.crcSample [.insert longKey (.stat .t)]
        (.trie (Trie.yltrieCreate : Trie (Ref 0))) ≠
      outcomes Hash.crcSample [.insert longKey (.stat .t)] (.hash Hash.hashCreate) := by
  intro h
  have htable : Hash.Table Hash.crcSample (Hash.hashCreate : Hash (Ref 0)) :=
    Hash.table_hashCreate
  obtain ⟨h', hadd, -⟩ := htable.hashAdd longKey (.stat .t) (Or.inl (Nat.zero_le _))
  rw [outcomes, outcomes, call_insert hadd,
    call_of_refused (.insert longKey (.stat .t)) Trie.rooted_yltrieCreate not_taken_longKey] at h
  have heq := Option.some.inj (List.cons.inj h).1
  split at heq <;> simp [refused] at heq

end Ylext

end Ylisp
