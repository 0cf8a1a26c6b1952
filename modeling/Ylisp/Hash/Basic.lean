import Mathlib.Algebra.Group.Nat.Defs
import Mathlib.Data.List.Basic
import Mathlib.Logic.Function.Basic

/-!
# The hash table of `hash.c`

The table is an array of `hmapsz` circular lists, given here as the lists of
their nodes. `crc32` is a parameter: the operations only use that it is a
function of the key.

`1 << mapbits` is a shift of an `int`, which has a value up to 30 bits. A table keeps that bound
as a field, so that the `int` counters of the loops over its buckets stay in range, too; an
operation that goes beyond has no result.

`values` are the values of all nodes, bucket by bucket; `hashWalk` with a
callback that always continues is given exactly these
(`hashWalk_eq_foldl`), and `hashAdd` brings in no value but the new one.
-/

namespace Ylisp

namespace Hash

/-- `struct _hn`; `keysz` is the length of the key. -/
structure Hn (α : Type*) where
  key : List UInt8
  hv32 : UInt32
  v : α

def maxHbits : ℕ := 32

def minHbits : ℕ := 4

end Hash

/-- `struct _sHash`. -/
structure Hash (α : Type*) where
  map : ℕ → List (Hash.Hn α)
  sz : ℕ
  mapbits : ℕ
  /-- `1 << mapbits` has a value in an `int`. -/
  mapbits_lt : mapbits < 31

namespace Hash

variable {α : Type*}

def hmapsz (h : Hash α) : ℕ := 2 ^ h.mapbits

/-- `_hv__`: the bucket of a hash value in a table of `2 ^ mapbits` buckets. -/
def hv (mapbits : ℕ) (hv32 : UInt32) : ℕ := hv32.toNat / 2 ^ (32 - mapbits)

/-- `yllist_add_last` on the bucket `i`. -/
def addLast (map : ℕ → List (Hn α)) (i : ℕ) (n : Hn α) : ℕ → List (Hn α) :=
  Function.update map i (map i ++ [n])

def nodes (h : Hash α) : List (Hn α) := (List.range h.hmapsz).flatMap h.map

def values (h : Hash α) : List α := h.nodes.map Hn.v

def hmodify (h : Hash α) (bits : ℕ) : Option (Hash α) :=
  let bits := min (max bits minHbits) maxHbits
  if h.mapbits = bits then some h
  -- `_hmapsz` shifts by the new number of bits
  else if hlt : bits < 31 then
    some
      { map := h.nodes.foldl (fun map n => addLast map (hv bits n.hv32) n) fun _ => []
        sz := h.sz
        mapbits := bits
        mapbits_lt := hlt }
  else none

def hashCreate : Hash α where
  map := fun _ => []
  sz := 0
  mapbits := minHbits
  mapbits_lt := by decide

def hashWalk {σ : Type*} (h : Hash α) (cb : σ → List UInt8 → α → σ × Bool) (s : σ) :
    σ × Bool :=
  go h.nodes s
where
  go : List (Hn α) → σ → σ × Bool
    | [], s => (s, true)
    | n :: ns, s =>
        let r := cb s n.key n.v
        if r.2 then go ns r.1 else (r.1, false)

theorem hashWalk_eq_foldl {σ : Type*} (h : Hash α) (f : σ → α → σ) (s : σ) :
    h.hashWalk (fun s _ x => (f s x, true)) s = (h.values.foldl f s, true) := by
  suffices hgo : ∀ (ns : List (Hn α)) (s : σ),
      hashWalk.go (fun s _ x => (f s x, true)) ns s =
        ((ns.map Hn.v).foldl f s, true) from hgo h.nodes s
  intro ns
  induction ns with
  | nil => exact fun _ => rfl
  | cons n ns ih =>
      intro s
      simp [hashWalk.go, ih]

section Key

variable (crc32 : List UInt8 → UInt32)

def hfind (h : Hash α) (key : List UInt8) : Option (Hn α) :=
  (h.map (hv h.mapbits (crc32 key))).find? fun n =>
    n.hv32 = crc32 key ∧ n.key = key

def hashGet (h : Hash α) (key : List UInt8) : Option α :=
  (h.hfind crc32 key).map Hn.v

def hashDel (h : Hash α) (key : List UInt8) : Option (Int × Hash α) :=
  match h.hfind crc32 key with
  | none => some (-1, h)
  | some _ =>
      let i := hv h.mapbits (crc32 key)
      let h' : Hash α :=
        { h with
          map := Function.update h.map i
            ((h.map i).eraseP fun n => n.hv32 = crc32 key ∧ n.key = key)
          sz := h.sz - 1 }
      if h'.sz < h'.hmapsz / 4 then (h'.hmodify (h'.mapbits - 1)).map fun h' => (0, h')
      else some (0, h')

def hashAdd (h : Hash α) (key : List UInt8) (x : α) : Option (Int × Hash α) := do
  let d ← h.hashDel crc32 key
  let r : Int := if d.1 = 0 then 1 else 0
  let h ← if d.2.sz > d.2.hmapsz then d.2.hmodify (d.2.mapbits + 1) else some d.2
  let n : Hn α := ⟨key, crc32 key, x⟩
  some (r, { h with map := addLast h.map (hv h.mapbits n.hv32) n, sz := h.sz + 1 })

end Key

/-! Every operation moves nodes that the table already had. -/

theorem mem_addLast {map : ℕ → List (Hn α)} {i j : ℕ} {n m : Hn α}
    (h : m ∈ addLast map i n j) : m ∈ map j ∨ m = n := by
  unfold addLast at h
  rw [Function.update_apply] at h
  split at h
  next hj =>
    subst hj
    simpa using h
  next => exact Or.inl h

theorem mem_foldl_addLast {bits j : ℕ} {m : Hn α} :
    ∀ (ns : List (Hn α)) (map : ℕ → List (Hn α)),
      m ∈ ns.foldl (fun map n => addLast map (hv bits n.hv32) n) map j →
        m ∈ map j ∨ m ∈ ns
  | [], _, h => Or.inl h
  | n :: ns, map, h => by
      rcases mem_foldl_addLast ns _ h with h | h
      · rcases mem_addLast h with h | h
        · exact Or.inl h
        · exact Or.inr (h ▸ List.mem_cons_self)
      · exact Or.inr (List.mem_cons_of_mem _ h)

theorem mem_values_iff (h : Hash α) (x : α) :
    x ∈ h.values ↔ ∃ i < h.hmapsz, ∃ n ∈ h.map i, n.v = x := by
  simp only [values, nodes, List.mem_map, List.mem_flatMap, List.mem_range]
  constructor
  · rintro ⟨n, ⟨i, hi, hn⟩, rfl⟩
    exact ⟨i, hi, n, hn, rfl⟩
  · rintro ⟨i, hi, n, hn, rfl⟩
    exact ⟨n, ⟨i, hi, hn⟩, rfl⟩

theorem values_hashCreate : (hashCreate : Hash α).values = [] := by
  simp [values, nodes, hashCreate]

theorem mem_values_hmodify {h h' : Hash α} {bits : ℕ} {x : α} (h0 : h.hmodify bits = some h')
    (hx : x ∈ h'.values) : x ∈ h.values := by
  unfold hmodify at h0
  dsimp only at h0
  split at h0
  · cases h0
    exact hx
  · split at h0
    · cases h0
      obtain ⟨i, _, n, hn, rfl⟩ := (mem_values_iff _ _).1 hx
      rcases mem_foldl_addLast _ _ hn with hn | hn
      · cases hn
      · exact List.mem_map_of_mem hn
    · cases h0

theorem mem_values_hashDel {crc32 : List UInt8 → UInt32} {h : Hash α} {key : List UInt8}
    {d : Int × Hash α} {x : α} (hdel : h.hashDel crc32 key = some d) (hx : x ∈ d.2.values) :
    x ∈ h.values := by
  unfold hashDel at hdel
  split at hdel
  · cases hdel
    exact hx
  · have herase : ∀ {h' : Hash α}, h' = { h with
          map := Function.update h.map (hv h.mapbits (crc32 key))
            ((h.map (hv h.mapbits (crc32 key))).eraseP
              fun n => n.hv32 = crc32 key ∧ n.key = key)
          sz := h.sz - 1 } → x ∈ h'.values → x ∈ h.values := by
      rintro h' rfl hx
      obtain ⟨i, hi, n, hn, rfl⟩ := (mem_values_iff _ _).1 hx
      refine (mem_values_iff _ _).2 ⟨i, hi, n, ?_, rfl⟩
      simp only [Function.update_apply] at hn
      split at hn
      next hi' => exact hi' ▸ List.mem_of_mem_eraseP hn
      next => exact hn
    dsimp only at hdel
    split at hdel
    · obtain ⟨h', hmod, rfl⟩ := Option.map_eq_some_iff.1 hdel
      exact herase rfl (mem_values_hmodify hmod hx)
    · cases hdel
      exact herase rfl hx

/-- An insertion is a deletion, a table with room, and one node more. -/
theorem hashAdd_eq_some {crc32 : List UInt8 → UInt32} {h : Hash α} {key : List UInt8} {x : α}
    {r : Int × Hash α} : h.hashAdd crc32 key x = some r ↔
      ∃ d h', h.hashDel crc32 key = some d ∧
        (if d.2.sz > d.2.hmapsz then d.2.hmodify (d.2.mapbits + 1) else some d.2) = some h' ∧
        r = (if d.1 = 0 then 1 else 0, { h' with
          map := addLast h'.map (hv h'.mapbits (crc32 key)) ⟨key, crc32 key, x⟩
          sz := h'.sz + 1 }) := by
  unfold hashAdd
  cases hdel : h.hashDel crc32 key with
  | none => simp
  | some d =>
      by_cases hfull : d.2.sz > d.2.hmapsz
      · simp [hfull, Option.bind_eq_some_iff, eq_comm (a := r)]
      · simp [hfull, eq_comm (a := r)]

/-- The values after `hash_add` are old ones and the one that was added. -/
theorem mem_values_hashAdd {crc32 : List UInt8 → UInt32} {h : Hash α}
    {key : List UInt8} {x y : α} {r : Int × Hash α} (hadd : h.hashAdd crc32 key x = some r)
    (hy : y ∈ r.2.values) : y ∈ h.values ∨ y = x := by
  obtain ⟨d, h', hdel, hroom, rfl⟩ := hashAdd_eq_some.1 hadd
  obtain ⟨i, hi, n, hn, rfl⟩ := (mem_values_iff _ _).1 hy
  rcases mem_addLast hn with hn | rfl
  · left
    have hmem : n.v ∈ h'.values := (mem_values_iff _ _).2 ⟨i, hi, n, hn, rfl⟩
    refine mem_values_hashDel hdel ?_
    split at hroom
    · exact mem_values_hmodify hroom hmem
    · cases hroom
      exact hmem
  · exact Or.inr rfl

end Hash

end Ylisp
