import Mathlib.Data.List.Forall2
import Ylisp.Ylbase.Arith

/-!
# Arrays

`make-array`, `arr*` and `arr+`. An array of several dimensions is an array of arrays, each a block
of its own, which is taken from the pool. A block is named by its place, so that an array may be an
element of any array, of itself, too. The locks of the arrays are left out, and so are calls of
`ylmalloc` that fail.

An index is converted to `long long`, a dimension to `unsigned int`, and the loop that fills an
array counts in an `int`. `ylacreate_cust` does not check the block that it is given. Where all this
is defined, `make-array` builds its blocks behind the ones that there are, those of each element in
a range of their own (`Place`).
-/

namespace Ylisp

namespace Ylext

open Ylbase (value longOf)

variable {γ : Type}

/-- An element, as far as arrays tell the difference. -/
inductive Elem (γ : Type) where
  | nil
  | dbl (x : Float)
  | arr (a : ℕ)
  | other (v : γ)

/-- The arrays that there are; `none` where the data is NULL. -/
abbrev Arrays (γ : Type) := List (Option (List (Elem γ)))

/-- The arrays, and the number of the blocks that are left in the pool. -/
structure ArrPool (γ : Type) where
  arrays : Arrays γ
  free : ℕ

def Arrays.row (h : Arrays γ) (a : ℕ) : Option (List (Elem γ)) := (h[a]?).join

inductive ArrEnd (γ : Type) where
  | ret (v : Elem γ)
  | fail

def yladbl : Elem γ → Option Float
  | .dbl x => some x
  | _ => none

/-- `(unsigned int)x`, of a `double`; undefined where it does not fit. -/
def uintOf (x : Float) : Option ℕ := do
  let l ← longOf x
  if 0 ≤ l ∧ l < 2 ^ 32 then some l.toNat else none

/-- The loop of `_arr_alloc`, with `k` places to go, from `i` on. Its variable is an `int`. -/
def fill {σ β : Type} (place : σ → Option (σ × β)) : (k i : ℕ) → σ → Option (σ × List β)
  | 0, _, s => some (s, [])
  | k + 1, i, s => do
      let (s, x) ← place s
      if i + 1 < 2 ^ 31 then do
        let (s, xs) ← fill place k (i + 1) s
        some (s, x :: xs)
      else none

def ylacreateCust (p : ArrPool γ) : Option (ArrPool γ × ℕ) :=
  if 0 < p.free then some (⟨p.arrays ++ [none], p.free - 1⟩, p.arrays.length) else none

def arrAlloc : List (Elem γ) → ArrPool γ → ℕ → Option (ArrPool γ)
  | [], _, _ => none
  | d :: e, p, ar => do
      let sz ← uintOf (← yladbl d)
      let (p, cells) ← fill (fun p =>
        match e with
        | [] => some (p, .nil)
        | _ :: _ => do
            let (p, r) ← ylacreateCust p
            let p ← arrAlloc e p r
            some (p, .arr r)) sz 0 p
      some { p with arrays := p.arrays.set ar (some cells) }

def checkDimParam : List (Elem γ) → Option Bool
  | [] => some true
  | .dbl x :: e => do
      let l ← longOf x
      if some (l : ℚ) = value x ∧ 0 ≤ l then checkDimParam e else some false
  | _ :: _ => some false

def makeArray (p : ArrPool γ) (e : List (Elem γ)) : Option (ArrEnd γ × ArrPool γ) :=
  if 1 > e.length ∨ e.length > 9999 then some (.fail, p)
  else do
    if ← checkDimParam e then
      let (p, r) ← ylacreateCust p
      let p ← arrAlloc e p r
      some (.ret (.arr r), p)
    else some (.fail, p)

/-- `_arr_get`: the place of an element, as its array and its index. -/
def arrGetPtr (h : Arrays γ) : List (Elem γ) → ℕ → Option (Option (ℕ × ℕ))
  | [], _ => none
  | x :: ie, e => do
      let i ← longOf (← yladbl x)
      let row ← h.row e
      if 0 > i ∨ row.length ≤ i then some none
      else
        match ie with
        | [] => some (some (e, i.toNat))
        | _ :: _ =>
            match row[i.toNat]? with
            | some (.arr ne) => if (h.row ne).isSome then arrGetPtr h ie ne else some none
            | _ => some none

def arrGet (h : Arrays γ) (e : List (Elem γ)) : Option (ArrEnd γ) :=
  if 2 > e.length ∨ e.length > 9999 then some .fail
  else
    match e with
    | .arr a :: ie =>
        if (h.row a).isSome then do
          if ← checkDimParam ie then
            match ← arrGetPtr h ie a with
            | some (r, i) => ((h.row r).bind fun cells => cells[i]?).map .ret
            | none => some .fail
          else some .fail
        else some .fail
    | _ => some .fail

def arrSet (h : Arrays γ) (e : List (Elem γ)) : Option (ArrEnd γ × Arrays γ) :=
  if 3 > e.length ∨ e.length > 9999 then some (.fail, h)
  else
    match e with
    | .arr a :: v :: ie =>
        if (h.row a).isSome then do
          if ← checkDimParam ie then
            match ← arrGetPtr h ie a with
            | some (r, i) => (h.row r).map fun cells => (.ret v, h.set r (some (cells.set i v)))
            | none => some (.fail, h)
          else some (.fail, h)
        else some (.fail, h)
    | _ => some (.fail, h)

/-! ### Numbers -/

def natOf (x : Float) : Option ℕ :=
  (value x).bind fun q => if q.den = 1 ∧ 0 ≤ q.num then some q.num.toNat else none

/-- The doubles that `_check_dim_param` converts are in the range of `long long`. -/
def Converts : List Float → Prop
  | [] => True
  | x :: e => (∃ l, longOf x = some l) ∧ ((∃ n, natOf x = some n) → Converts e)

section Numbers

variable {x : Float} {n : ℕ} {ie : List Float}

theorem natOf_eq_some : natOf x = some n ↔ value x = some (n : ℚ) := by
  rw [natOf, Option.bind_eq_some_iff]
  constructor
  · rintro ⟨q, hq, h⟩
    rw [Option.ite_none_right_eq_some, Option.some.injEq] at h
    obtain ⟨⟨hden, hnum⟩, rfl⟩ := h
    rw [hq, Option.some.injEq]
    refine Rat.ext ?_ ?_
    · rw [Rat.num_natCast]
      exact (Int.toNat_of_nonneg hnum).symm
    · rw [hden, Rat.den_natCast]
  · intro h
    refine ⟨n, h, ?_⟩
    rw [if_pos ⟨Rat.den_natCast n, by rw [Rat.num_natCast]; exact Int.natCast_nonneg n⟩,
      Rat.num_natCast, Int.toNat_natCast]

/-- A natural number is converted where it is a `long long`. -/
theorem longOf_of_natOf (h : natOf x = some n) :
    longOf x = if n < 2 ^ 63 then some (n : ℤ) else none := by
  have htrunc : (if 0 ≤ (n : ℚ) then (n : ℚ).floor else (n : ℚ).ceil) = (n : ℤ) := by
    rw [if_pos (Nat.cast_nonneg n)]
    exact Rat.floor_intCast n
  rw [longOf, natOf_eq_some.1 h, Option.bind_some, toLong, htrunc]
  exact if_congr (by omega) rfl rfl

theorem uintOf_of_natOf (h : natOf x = some n) :
    uintOf x = if n < 2 ^ 32 then some n else none := by
  have hlong := longOf_of_natOf h
  split at hlong
  next hlt =>
    have hcond : (0 ≤ (n : ℤ) ∧ (n : ℤ) < 2 ^ 32) ↔ n < 2 ^ 32 := by omega
    rw [uintOf, hlong, Option.bind_eq_bind, Option.bind_some, Int.toNat_natCast]
    exact if_congr hcond rfl rfl
  next hge =>
    have hbig : ¬ n < 2 ^ 32 := by omega
    rw [uintOf, hlong, if_neg hbig, Option.bind_eq_bind, Option.bind_none]

theorem natOf_iff {l : ℤ} (h : longOf x = some l) :
    (some (l : ℚ) = value x ∧ 0 ≤ l) ↔ ∃ n, natOf x = some n := by
  constructor
  · rintro ⟨hval, hpos⟩
    refine ⟨l.toNat, natOf_eq_some.2 ?_⟩
    have hcast : ((l.toNat : ℤ) : ℚ) = (l : ℚ) := by rw [Int.toNat_of_nonneg hpos]
    rw [← hval, ← hcast, Int.cast_natCast]
  · rintro ⟨n, hn⟩
    have hl := longOf_of_natOf hn
    rw [h] at hl
    split at hl
    · cases hl
      exact ⟨(natOf_eq_some.1 hn).symm ▸ rfl, Int.natCast_nonneg n⟩
    · cases hl

section Check

variable {e : List (Elem γ)} {l : ℤ}

theorem checkDimParam_cons (hl : longOf x = some l) (hx : ∃ n, natOf x = some n) :
    checkDimParam (.dbl x :: e) = checkDimParam e := by
  rw [checkDimParam, hl]
  exact if_pos ((natOf_iff hl).2 hx)

theorem checkDimParam_cons_of_not (hl : longOf x = some l) (hx : ¬ ∃ n, natOf x = some n) :
    checkDimParam (.dbl x :: e) = some false := by
  rw [checkDimParam, hl]
  exact if_neg fun h => hx ((natOf_iff hl).1 h)

theorem checkDimParam_cons_of_none (hl : longOf x = none) :
    checkDimParam (.dbl x :: e) = none := by
  rw [checkDimParam, hl]
  rfl

theorem checkDimParam_cases (hc : Converts ie) :
    (checkDimParam (ie.map .dbl : List (Elem γ)) = some true ∧
      ∀ x ∈ ie, ∃ n : ℕ, natOf x = some n ∧ longOf x = some (n : ℤ)) ∨
    (checkDimParam (ie.map .dbl : List (Elem γ)) = some false ∧ ∃ x ∈ ie, natOf x = none) := by
  induction ie with
  | nil => exact .inl ⟨rfl, nofun⟩
  | cons x ie ih =>
      obtain ⟨⟨l, hl⟩, hrest⟩ := hc
      by_cases hx : ∃ n, natOf x = some n
      · have hn : ∃ n : ℕ, natOf x = some n ∧ longOf x = some (n : ℤ) := by
          obtain ⟨n, hn⟩ := hx
          refine ⟨n, hn, ?_⟩
          have hlong := longOf_of_natOf hn
          rw [hl] at hlong ⊢
          split at hlong
          · exact hlong
          · cases hlong
        rw [List.map_cons, checkDimParam_cons hl hx]
        rcases ih (hrest hx) with ⟨htrue, hall⟩ | ⟨hfalse, y, hy, hno⟩
        · exact .inl ⟨htrue, List.forall_mem_cons.2 ⟨hn, hall⟩⟩
        · exact .inr ⟨hfalse, y, List.mem_cons_of_mem x hy, hno⟩
      · rw [List.map_cons, checkDimParam_cons_of_not hl hx]
        refine .inr ⟨rfl, x, List.mem_cons_self, ?_⟩
        rw [Option.eq_none_iff_forall_ne_some]
        exact fun n hn => hx ⟨n, hn⟩

theorem checkDimParam_eq_none (hc : ¬ Converts ie) :
    checkDimParam (ie.map .dbl : List (Elem γ)) = none := by
  induction ie with
  | nil => exact absurd trivial hc
  | cons x ie ih =>
      rw [List.map_cons]
      cases hl : longOf x with
      | none => exact checkDimParam_cons_of_none hl
      | some l =>
          have hx : ∃ n, natOf x = some n := by
            by_contra hx
            exact hc ⟨⟨l, hl⟩, fun h => absurd h hx⟩
          rw [checkDimParam_cons hl hx]
          exact ih fun h => hc ⟨⟨l, hl⟩, fun _ => h⟩

end Check

end Numbers

/-! ### The blocks of an array -/

/-- The dimensions up to the first one that is 0 are less than 2^31. -/
def DimsFit : List ℕ → Prop
  | [] => True
  | d :: ds => d < 2 ^ 31 ∧ (d = 0 ∨ DimsFit ds)

/-- The number of the blocks that an array of these dimensions takes. -/
def blocks : List ℕ → ℕ
  | [] => 0
  | d :: ds => 1 + d * blocks ds

/-- What is at one place: an element, or an array whose blocks follow each other from `lo` on. -/
def Place (h : Arrays γ) : List ℕ → ℕ → (List ℕ → Elem γ) → Elem γ → Prop
  | [], _, f, x => x = f []
  | d :: ds, lo, f, x => x = .arr lo ∧ ∃ cells, h.row lo = some cells ∧ cells.length = d ∧
      ∀ (i : ℕ) (hi : i < cells.length),
        Place h ds (lo + 1 + i * blocks ds) (fun idx => f (i :: idx)) cells[i]

section Blocks

variable {h h' : Arrays γ} {ds : List ℕ} {lo a : ℕ} {f : List ℕ → Elem γ} {x : Elem γ}

theorem blocks_le {d i : ℕ} (hi : i < d) (ds : List ℕ) :
    1 + i * blocks ds + blocks ds ≤ blocks (d :: ds) := by
  have hmul : (i + 1) * blocks ds ≤ d * blocks ds := Nat.mul_le_mul_right _ hi
  rw [Nat.succ_mul] at hmul
  rw [blocks]
  omega

/-- What is at a place depends on its own blocks only. -/
theorem Place.frame (hp : Place h ds lo f x)
    (hrow : ∀ a, lo ≤ a → a < lo + blocks ds → h'.row a = h.row a) : Place h' ds lo f x := by
  induction ds generalizing lo f x with
  | nil => exact hp
  | cons d ds ih =>
      obtain ⟨hx, cells, hcells, hlen, hall⟩ := hp
      have hself : h'.row lo = h.row lo := by
        refine hrow lo le_rfl ?_
        rw [blocks]
        omega
      refine ⟨hx, cells, hself.trans hcells, hlen, fun i hi => ih (hall i hi) fun a hlo hhi => ?_⟩
      have hle := blocks_le (hlen ▸ hi) ds
      exact hrow a (by omega) (by omega)

theorem Arrays.row_set_self (ha : a < h.length) (cells : List (Elem γ)) :
    Arrays.row (h.set a (some cells)) a = some cells := by
  rw [Arrays.row, List.getElem?_set_self ha, Option.join_some]

theorem Arrays.row_set_of_ne {b : ℕ} (hb : b ≠ a) (cells : Option (List (Elem γ))) :
    Arrays.row (h.set a cells) b = h.row b := by
  rw [Arrays.row, List.getElem?_set_ne hb.symm, Arrays.row]

theorem Arrays.row_append (ha : a < h.length) (t : Arrays γ) :
    Arrays.row (h ++ t) a = h.row a := by
  rw [Arrays.row, List.getElem?_append_left ha, Arrays.row]

theorem Arrays.lt_of_row {cells : List (Elem γ)} (hr : h.row a = some cells) : a < h.length := by
  rw [Arrays.row, Option.join_eq_some_iff] at hr
  exact (List.getElem?_eq_some_iff.1 hr).1

end Blocks

section Loop

variable {σ β : Type} {place : σ → Option (σ × β)} {s : σ}

/-- The loop keeps what each of its rounds keeps, while its variable is an `int`. -/
theorem exists_fill (P : σ → ℕ → List β → Prop) {m : ℕ}
    (hplace : ∀ i s xs, i < m → P s i xs →
      ∃ s' x, place s = some (s', x) ∧ P s' (i + 1) (xs ++ [x])) (hm : m < 2 ^ 31) :
    ∀ {k i : ℕ} {s : σ} {xs : List β}, P s i xs → i + k = m →
      ∃ s' ys, fill place k i s = some (s', ys) ∧ P s' m (xs ++ ys) := by
  intro k
  induction k with
  | zero =>
      rintro i s xs hP rfl
      exact ⟨s, [], rfl, by simpa using hP⟩
  | succ k ih =>
      intro i s xs hP hk
      obtain ⟨s₁, x, h₁, hP₁⟩ := hplace i s xs (by omega) hP
      obtain ⟨s', ys, h', hP'⟩ := ih hP₁ (by omega)
      refine ⟨s', x :: ys, ?_, ?_⟩
      · rw [fill, h₁]
        dsimp only [Option.bind_eq_bind, Option.bind_some]
        rw [if_pos (by omega), h']
        rfl
      · rw [List.append_assoc] at hP'
        exact hP'

/-- What each round takes of a supply, the loop takes `k` times. -/
theorem fill_takes (supply : σ → ℕ) {b : ℕ}
    (hplace : ∀ s s' x, place s = some (s', x) → supply s = supply s' + b) :
    ∀ {k i : ℕ} {s s' : σ} {xs : List β}, fill place k i s = some (s', xs) →
      supply s = supply s' + k * b := by
  intro k
  induction k with
  | zero =>
      intro i s s' xs h
      cases h
      simp
  | succ k ih =>
      intro i s s' xs h
      simp only [fill, Option.bind_eq_bind, Option.bind_eq_some_iff] at h
      obtain ⟨⟨s₁, x⟩, h₁, h⟩ := h
      split at h
      · obtain ⟨⟨s₂, ys⟩, h₂, h⟩ := Option.bind_eq_some_iff.1 h
        cases h
        have htaken := ih h₂
        rw [hplace s s₁ x h₁, Nat.succ_mul]
        dsimp only at htaken ⊢
        omega
      · cases h

theorem fill_eq_none_of_le : ∀ {k i : ℕ} {s : σ}, 2 ^ 31 ≤ i + k → i < 2 ^ 31 →
    fill place k i s = none := by
  intro k
  induction k with
  | zero =>
      intro i s hle hlt
      omega
  | succ k ih =>
      intro i s hle hlt
      rw [fill]
      cases place s with
      | none => rfl
      | some r =>
          dsimp only [Option.bind_eq_bind, Option.bind_some]
          split
          next hi =>
            rw [ih (by omega) hi]
            rfl
          · rfl

theorem fill_eq_none {k i : ℕ} (hs : place s = none) : fill place (k + 1) i s = none := by
  rw [fill, hs]
  rfl

end Loop

section Alloc

variable {p p' : ArrPool γ} {xs : List Float} {ds : List ℕ}

/-- A place of `_arr_alloc`: `nil`, or an array of the dimensions that are left. -/
def placeOf (e : List (Elem γ)) (p : ArrPool γ) : Option (ArrPool γ × Elem γ) :=
  match e with
  | [] => some (p, .nil)
  | _ :: _ => do
      let (p, r) ← ylacreateCust p
      let p ← arrAlloc e p r
      some (p, .arr r)

def ArrPool.take (p : ArrPool γ) : ArrPool γ := ⟨p.arrays ++ [none], p.free - 1⟩

theorem placeOf_cons {d : Elem γ} {e : List (Elem γ)} (hp : 0 < p.free) :
    placeOf (d :: e) p =
      (arrAlloc (d :: e) p.take p.arrays.length).bind fun p' =>
        some (p', .arr p.arrays.length) := by
  rw [placeOf, ylacreateCust, if_pos hp]
  rfl

theorem placeOf_cons_of_exhausted {d : Elem γ} {e : List (Elem γ)} (hp : ¬ 0 < p.free) :
    placeOf (d :: e) p = none := by
  rw [placeOf, ylacreateCust, if_neg hp]
  rfl

theorem arrAlloc_dbl {x : Float} {sz : ℕ} {e : List (Elem γ)} (hsz : uintOf x = some sz)
    (p : ArrPool γ) (ar : ℕ) : arrAlloc (.dbl x :: e) p ar =
      (fill (placeOf e) sz 0 p).bind fun r =>
        some { r.1 with arrays := r.1.arrays.set ar (some r.2) } := by
  rw [arrAlloc, yladbl, Option.bind_eq_bind, Option.bind_some, hsz]
  cases e with
  | nil => rfl
  | cons d e => rfl

structure Placed (p p' : ArrPool γ) (ds : List ℕ) (x : Elem γ) : Prop where
  length : p'.arrays.length = p.arrays.length + blocks ds
  free : p.free = p'.free + blocks ds
  old : ∀ a < p.arrays.length, p'.arrays.row a = p.arrays.row a
  place : Place p'.arrays ds p.arrays.length (fun _ => .nil) x

/-- What the loop has built after `i` rounds: the first places of an array, behind the block that
the array has been given. -/
structure BuiltUpTo (p p₁ : ArrPool γ) (ds : List ℕ) (i : ℕ) (cells : List (Elem γ)) : Prop where
  length : p₁.arrays.length = p.arrays.length + 1 + i * blocks ds
  free : p.free = p₁.free + 1 + i * blocks ds
  old : ∀ a < p.arrays.length, p₁.arrays.row a = p.arrays.row a
  count : cells.length = i
  places : ∀ (j : ℕ) (hj : j < cells.length),
    Place p₁.arrays ds (p.arrays.length + 1 + j * blocks ds) (fun _ => .nil) cells[j]

section BuiltUpTo

variable {p₁ p₂ : ArrPool γ} {i : ℕ} {cells : List (Elem γ)} {y : Elem γ}

theorem builtUpTo_zero (hp : 0 < p.free) (ds : List ℕ) : BuiltUpTo p p.take ds 0 [] where
  length := by simp [ArrPool.take]
  free := by
    dsimp only [ArrPool.take]
    omega
  old a ha := Arrays.row_append ha _
  count := rfl
  places := nofun

theorem BuiltUpTo.snoc (hf : BuiltUpTo p p₁ ds i cells) (hy : Placed p₁ p₂ ds y) :
    BuiltUpTo p p₂ ds (i + 1) (cells ++ [y]) := by
  have hlen := hf.length
  have hcount := hf.count
  refine ⟨?_, ?_, fun a ha => ?_, ?_, fun j hj => ?_⟩
  · rw [hy.length, hlen, Nat.succ_mul, ← Nat.add_assoc]
  · rw [hf.free, hy.free, Nat.succ_mul]
    omega
  · rw [hy.old a (by omega), hf.old a ha]
  · rw [List.length_append, hcount, List.length_singleton]
  · rcases Nat.lt_or_ge j cells.length with hlt | hge
    · rw [List.getElem_append_left hlt]
      have hmul : (j + 1) * blocks ds ≤ i * blocks ds := Nat.mul_le_mul_right _ (by omega)
      rw [Nat.succ_mul] at hmul
      exact (hf.places j hlt).frame fun a _ hhi => hy.old a (by omega)
    · obtain rfl : j = i := by
        rw [List.length_append, List.length_singleton] at hj
        omega
      have hplace := hy.place
      rw [hlen] at hplace
      simpa [List.getElem_append_right hge, hcount] using hplace

/-- With all its places, an array is linked to its block. -/
theorem BuiltUpTo.placed (hf : BuiltUpTo p p₁ ds i cells) :
    Placed p { p₁ with arrays := p₁.arrays.set p.arrays.length (some cells) } (i :: ds)
      (.arr p.arrays.length) := by
  have hlen := hf.length
  refine ⟨?_, ?_, fun a ha => ?_, rfl, cells, ?_, hf.count, fun j hj => ?_⟩
  · rw [List.length_set, hlen, blocks]
    omega
  · dsimp only
    rw [hf.free, blocks, Nat.add_assoc]
  · rw [Arrays.row_set_of_ne (by omega), hf.old a ha]
  · exact Arrays.row_set_self (by omega) cells
  · exact (hf.places j hj).frame fun a hlo _ => Arrays.row_set_of_ne (by omega) _

end BuiltUpTo

theorem exists_placeOf (hd : List.Forall₂ (fun x d => natOf x = some d) xs ds) (hfit : DimsFit ds)
    (hfree : blocks ds ≤ p.free) :
    ∃ p' x, placeOf (xs.map .dbl) p = some (p', x) ∧ Placed p p' ds x := by
  induction hd generalizing p with
  | nil => exact ⟨p, .nil, rfl, rfl, rfl, fun _ _ => rfl, rfl⟩
  | @cons x d xs ds hx hd ih =>
      obtain ⟨hlt, hrest⟩ := hfit
      have hsz : uintOf x = some d := by
        rw [uintOf_of_natOf hx, if_pos (by omega)]
      have hone : 0 < p.free := by
        rw [blocks] at hfree
        omega
      have hbuilt : ∃ p₁ cells, fill (placeOf (xs.map .dbl)) d 0 p.take = some (p₁, cells) ∧
          BuiltUpTo p p₁ ds d cells := by
        rcases hrest with rfl | hfit
        · exact ⟨_, [], rfl, builtUpTo_zero hone ds⟩
        · have hround : ∀ i p₁ cells, i < d → BuiltUpTo p p₁ ds i cells → ∃ p₂ y,
              placeOf (xs.map .dbl) p₁ = some (p₂, y) ∧
                BuiltUpTo p p₂ ds (i + 1) (cells ++ [y]) := by
            intro i p₁ cells hi hf
            -- the rounds that are left have their blocks
            have hleft : blocks ds ≤ p₁.free := by
              have hle := blocks_le hi ds
              have htaken := hf.free
              omega
            obtain ⟨p₂, y, hy, hplaced⟩ := ih hfit hleft
            exact ⟨p₂, y, hy, hf.snoc hplaced⟩
          exact exists_fill (fun p₁ => BuiltUpTo p p₁ ds) hround hlt (builtUpTo_zero hone ds)
            (Nat.zero_add d)
      obtain ⟨p₁, cells, hfill, hf⟩ := hbuilt
      refine ⟨_, .arr p.arrays.length, ?_, hf.placed⟩
      rw [List.map_cons, placeOf_cons hone, arrAlloc_dbl hsz, hfill]
      rfl

theorem free_placeOf (hd : List.Forall₂ (fun x d => natOf x = some d) xs ds) {x : Elem γ}
    (hp : placeOf (xs.map .dbl) p = some (p', x)) : p.free = p'.free + blocks ds := by
  induction hd generalizing p p' x with
  | nil =>
      cases hp
      rfl
  | @cons y d xs ds hy hd ih =>
      rw [List.map_cons] at hp
      by_cases hone : 0 < p.free
      · rw [placeOf_cons hone, Option.bind_eq_some_iff] at hp
        obtain ⟨q, hq, hpq⟩ := hp
        cases hpq
        cases hsz : uintOf y with
        | none =>
            rw [arrAlloc, yladbl, Option.bind_eq_bind, Option.bind_some, hsz] at hq
            cases hq
        | some sz =>
            obtain rfl : sz = d := by
              rw [uintOf_of_natOf hy, Option.ite_none_right_eq_some, Option.some.injEq] at hsz
              exact hsz.2.symm
            rw [arrAlloc_dbl hsz, Option.bind_eq_some_iff] at hq
            obtain ⟨⟨q', cells⟩, hfill, heq⟩ := hq
            cases heq
            have htaken := fill_takes ArrPool.free (fun s s' x h => ih h) hfill
            rw [ArrPool.take] at htaken
            rw [blocks]
            dsimp only at htaken ⊢
            omega
      · rw [placeOf_cons_of_exhausted hone] at hp
        cases hp

/-- A dimension from 2^31 on stops the loop, if there is a place for it at all. -/
theorem placeOf_eq_none (hd : List.Forall₂ (fun x d => natOf x = some d) xs ds)
    (hfit : ¬ DimsFit ds) (p : ArrPool γ) : placeOf (xs.map .dbl) p = none := by
  induction hd generalizing p with
  | nil => exact absurd trivial hfit
  | @cons x d xs ds hx hd ih =>
      have hfill : ∀ sz p, uintOf x = some sz → fill (placeOf (xs.map .dbl)) sz 0 p =
          (none : Option (ArrPool γ × List (Elem γ))) := by
        intro sz p hsz
        rw [uintOf_of_natOf hx] at hsz
        split at hsz
        next hlt =>
          cases hsz
          by_cases hd31 : d < 2 ^ 31
          · have hpos : d ≠ 0 := fun h0 => hfit ⟨hd31, .inl h0⟩
            obtain ⟨k, rfl⟩ := Nat.exists_eq_succ_of_ne_zero hpos
            exact fill_eq_none (ih (fun hrest => hfit ⟨hd31, .inr hrest⟩) _)
          · exact fill_eq_none_of_le (by omega) (by decide)
        · cases hsz
      rw [List.map_cons]
      by_cases hone : 0 < p.free
      · rw [placeOf_cons hone]
        cases hsz : uintOf x with
        | none =>
            rw [arrAlloc, yladbl, Option.bind_eq_bind, Option.bind_some, hsz]
            rfl
        | some sz =>
            rw [arrAlloc_dbl hsz, hfill sz _ hsz]
            rfl
      · exact placeOf_cons_of_exhausted hone

end Alloc

end Ylext

end Ylisp
