import Ylisp.Ylext.Array

/-!
# Arrays as maps

The array that `make-array` builds, under `arr*` and `arr+` with complete tuples. A tuple in range
leads to a place of its own (`Access`), so that a write changes the element of this tuple and no
other. The calls answer as those on a map from tuples to elements do, exactly where the pool has the
blocks and what they convert and count is defined (`array_iff`).
-/

namespace Ylisp

namespace Ylext

open Ylbase (longOf)

variable {γ : Type}

inductive ArrCall (γ : Type) where
  | get (ie : List Float)
  | set (v : Elem γ) (ie : List Float)

def ArrCall.tuple : ArrCall γ → List Float
  | .get ie => ie
  | .set _ ie => ie

def ArrCall.params (c : ArrCall γ) : ℕ :=
  match c with
  | .get ie => ie.length + 1
  | .set _ ie => ie.length + 2

def ArrCall.run (c : ArrCall γ) (h : Arrays γ) (root : ℕ) : Option (ArrEnd γ × Arrays γ) :=
  match c with
  | .get ie => (arrGet h (.arr root :: ie.map .dbl)).map fun r => (r, h)
  | .set v ie => arrSet h (.arr root :: v :: ie.map .dbl)

def index : List ℕ → List Float → Option (List ℕ)
  | [], [] => some []
  | d :: ds, x :: ie => do
      let i ← natOf x
      if i < d then (index ds ie).map (i :: ·) else none
  | _, _ => none

def ArrCall.spec (c : ArrCall γ) (ds : List ℕ) (f : List ℕ → Elem γ) :
    ArrEnd γ × (List ℕ → Elem γ) :=
  match index ds c.tuple, c with
  | some idx, .get _ => (.ret (f idx), f)
  | some idx, .set v _ => (.ret v, Function.update f idx v)
  | none, _ => (.fail, f)

/-- The calls, one after the other, answer as the map does. -/
def Agrees (root : ℕ) (ds : List ℕ) :
    Arrays γ → (List ℕ → Elem γ) → List (ArrCall γ) → Prop
  | _, _, [] => True
  | h, f, c :: cs => ∃ h', c.run h root = some ((c.spec ds f).1, h') ∧
      Agrees root ds h' (c.spec ds f).2 cs

/-- The call has at most 9999 parameters or is out of range, and its tuple converts. -/
def CallFits (ds : List ℕ) (c : ArrCall γ) : Prop :=
  (index ds c.tuple = none ∨ c.params ≤ 9999) ∧ (c.params ≤ 9999 → Converts c.tuple)

/-- A tuple with a part that is no natural number is out of range. -/
theorem index_eq_none {x : Float} {ie : List Float} {ds : List ℕ} (hx : x ∈ ie)
    (hno : natOf x = none) : index ds ie = none := by
  induction ie generalizing ds with
  | nil => cases hx
  | cons y ie ih =>
      cases ds with
      | nil => rfl
      | cons d ds =>
          rw [index]
          rcases List.mem_cons.1 hx with rfl | hx
          · rw [hno]
            rfl
          · cases natOf y with
            | none => rfl
            | some i =>
                dsimp only [Option.bind_eq_bind, Option.bind_some]
                rw [ih hx, Option.map_none, ite_self]

section Access

variable {h : Arrays γ} {d lo n r i : ℕ} {ds idx : List ℕ} {x : Float} {ie : List Float}
  {f : List ℕ → Elem γ} {v : Elem γ} {cells : List (Elem γ)}

theorem index_cons (hx : natOf x = some n) :
    index (d :: ds) (x :: ie) = if n < d then (index ds ie).map (n :: ·) else none := by
  rw [index, hx]
  rfl

theorem arrGetPtr_of_le {e : List (Elem γ)} (hx : longOf x = some (n : ℤ))
    (hrow : h.row lo = some cells) (hle : cells.length ≤ n) :
    arrGetPtr h (.dbl x :: e) lo = some none := by
  rw [arrGetPtr, yladbl, Option.bind_eq_bind, Option.bind_some, hx]
  dsimp only [Option.bind_eq_bind, Option.bind_some]
  rw [hrow, Option.bind_some, if_pos (.inr (by omega))]

theorem arrGetPtr_last (hx : longOf x = some (n : ℤ)) (hrow : h.row lo = some cells)
    (hlt : n < cells.length) : arrGetPtr h [.dbl x] lo = some (some (lo, n)) := by
  rw [arrGetPtr, yladbl, Option.bind_eq_bind, Option.bind_some, hx]
  dsimp only [Option.bind_eq_bind, Option.bind_some]
  rw [hrow, Option.bind_some, if_neg (by omega), Int.toNat_natCast]

theorem arrGetPtr_next {y : Elem γ} {e : List (Elem γ)} {ne : ℕ} (hx : longOf x = some (n : ℤ))
    (hrow : h.row lo = some cells) (hcell : cells[n]? = some (.arr ne))
    (hne : (h.row ne).isSome) :
    arrGetPtr h (.dbl x :: y :: e) lo = arrGetPtr h (y :: e) ne := by
  have hlt := (List.getElem?_eq_some_iff.1 hcell).1
  rw [arrGetPtr, yladbl, Option.bind_eq_bind, Option.bind_some, hx]
  dsimp only [Option.bind_eq_bind, Option.bind_some]
  rw [hrow, Option.bind_some, if_neg (by omega), Int.toNat_natCast, hcell]
  exact if_pos hne

/-- The blocks of two places of an array are apart. -/
theorem blocks_apart {j a b : ℕ} (hij : j ≠ i) (ha : lo + j * b ≤ a) (ha' : a < lo + j * b + b)
    (hr : lo + i * b ≤ r) (hr' : r < lo + i * b + b) : a ≠ r := by
  rintro rfl
  rcases Nat.lt_or_gt_of_ne hij with hlt | hlt
  · have hmul := Nat.mul_le_mul_right b (Nat.succ_le_of_lt hlt)
    rw [Nat.succ_mul] at hmul
    omega
  · have hmul := Nat.mul_le_mul_right b (Nat.succ_le_of_lt hlt)
    rw [Nat.succ_mul] at hmul
    omega

/-- The place that a tuple leads to: it holds the element of the tuple, and a write to it changes
this element and no other. -/
structure Access (h : Arrays γ) (ds : List ℕ) (lo : ℕ) (f : List ℕ → Elem γ) (v : Elem γ)
    (idx : List ℕ) (r i : ℕ) (cells : List (Elem γ)) : Prop where
  row : h.row r = some cells
  cell : cells[i]? = some (f idx)
  le : lo ≤ r
  lt : r < lo + blocks ds
  write : ∀ w, Place (h.set r (some (cells.set i w))) ds lo (Function.update f idx w) v

theorem access_last (hp : Place h [d] lo f v) (hn : n < d) :
    ∃ cells, h.row lo = some cells ∧ n < cells.length ∧ Access h [d] lo f v [n] lo n cells := by
  obtain ⟨rfl, cells, hrow, rfl, hall⟩ := hp
  refine ⟨cells, hrow, hn, hrow, ?_, le_rfl, ?_,
    fun w => ⟨rfl, cells.set n w, ?_, ?_, fun j hj => ?_⟩⟩
  · rw [List.getElem?_eq_getElem hn]
    exact congrArg some (hall n hn)
  · simp [blocks]
  · exact Arrays.row_set_self (Arrays.lt_of_row hrow) _
  · rw [List.length_set]
  · rw [Place]
    by_cases hjn : n = j
    · subst hjn
      rw [List.getElem_set_self, Function.update_self]
    · have hne : ([j] : List ℕ) ≠ [n] := fun heq => hjn (List.cons.inj heq).1.symm
      rw [List.getElem_set_ne hjn, Function.update_of_ne hne]
      exact hall j (by simpa using hj)

/-- The element of a tuple is where the rest of the tuple leads to, in the array at the first
index. -/
theorem Access.next {top : List (Elem γ)} (hrow : h.row lo = some top)
    (hall : ∀ (j : ℕ) (hj : j < top.length),
      Place h ds (lo + 1 + j * blocks ds) (fun idx => f (j :: idx)) top[j]) (hn : n < top.length)
    (ha : Access h ds (lo + 1 + n * blocks ds) (fun idx => f (n :: idx)) top[n] idx r i cells) :
    Access h (top.length :: ds) lo f (.arr lo) (n :: idx) r i cells := by
  have hle := blocks_le hn ds
  have hlow := ha.le
  have hhigh := ha.lt
  refine ⟨ha.row, ha.cell, by omega, by omega, fun w => ⟨rfl, top, ?_, rfl, fun j hj => ?_⟩⟩
  · rw [Arrays.row_set_of_ne (by omega), hrow]
  · by_cases hjn : j = n
    · subst hjn
      have hupd : (fun t => Function.update f (j :: idx) w (j :: t)) =
          Function.update (fun t => f (j :: t)) idx w := by
        funext t
        by_cases ht : t = idx
        · rw [ht, Function.update_self, Function.update_self]
        · have hne : j :: t ≠ j :: idx := fun heq => ht (List.cons.inj heq).2
          rw [Function.update_of_ne ht, Function.update_of_ne hne]
      rw [hupd]
      exact ha.write w
    · have hupd : (fun t => Function.update f (n :: idx) w (j :: t)) = fun t => f (j :: t) := by
        funext t
        exact Function.update_of_ne (fun heq => hjn (List.cons.inj heq).1) _ _
      rw [hupd]
      refine (hall j hj).frame fun a halo hahi => Arrays.row_set_of_ne ?_ _
      exact blocks_apart hjn halo hahi hlow hhigh

/-- A complete tuple of natural numbers leads to its element, or is out of range. -/
theorem arrGetPtr_cases (hp : Place h (d :: ds) lo f v) (hlen : ie.length = ds.length + 1)
    (hie : ∀ x ∈ ie, ∃ n : ℕ, natOf x = some n ∧ longOf x = some (n : ℤ)) :
    (index (d :: ds) ie = none ∧ arrGetPtr h (ie.map .dbl) lo = some none) ∨
      ∃ idx r i cells, index (d :: ds) ie = some idx ∧
        arrGetPtr h (ie.map .dbl) lo = some (some (r, i)) ∧
        Access h (d :: ds) lo f v idx r i cells := by
  induction ds generalizing d ie lo f v with
  | nil =>
      obtain ⟨x, rfl⟩ := List.length_eq_one_iff.1 hlen
      obtain ⟨n, hn, hl⟩ := hie x List.mem_cons_self
      rw [index_cons hn]
      by_cases hlt : n < d
      · obtain ⟨cells, hrow, hcell, ha⟩ := access_last hp hlt
        rw [if_pos hlt]
        exact .inr ⟨[n], lo, n, cells, rfl, arrGetPtr_last hl hrow hcell, ha⟩
      · obtain ⟨rfl, cells, hrow, rfl, -⟩ := hp
        exact .inl ⟨if_neg hlt, arrGetPtr_of_le hl hrow (by omega)⟩
  | cons d' ds ih =>
      obtain ⟨x, y, ie, rfl⟩ : ∃ x y ie', ie = x :: y :: ie' := by
        match ie, hlen with
        | x :: y :: ie', _ => exact ⟨x, y, ie', rfl⟩
      obtain ⟨n, hn, hl⟩ := hie x List.mem_cons_self
      obtain ⟨rfl, top, hrow, rfl, hall⟩ := hp
      rw [index_cons hn]
      by_cases hlt : n < top.length
      · have hchild := hall n hlt
        obtain ⟨hcell, sub, hsub, -⟩ := id hchild
        have hnext : arrGetPtr h ((x :: y :: ie).map .dbl) lo =
            arrGetPtr h ((y :: ie).map .dbl) (lo + 1 + n * blocks (d' :: ds)) := by
          refine arrGetPtr_next hl hrow ?_ (by rw [hsub]; rfl)
          rw [List.getElem?_eq_getElem hlt, hcell]
        rw [if_pos hlt, hnext]
        rcases ih hchild (by simpa using hlen) fun z hz => hie z (List.mem_cons_of_mem x hz) with
          ⟨hidx, hptr⟩ | ⟨idx, r, i, cells, hidx, hptr, ha⟩
        · rw [hidx]
          exact .inl ⟨rfl, hptr⟩
        · rw [hidx]
          exact .inr ⟨n :: idx, r, i, cells, rfl, hptr, ha.next hrow hall hlt⟩
      · exact .inl ⟨if_neg hlt, arrGetPtr_of_le hl hrow (by omega)⟩

end Access

section Runs

variable {h h' : Arrays γ} {root d : ℕ} {ds : List ℕ} {f : List ℕ → Elem γ} {c : ArrCall γ}

/-- What a call does with the place that `_arr_get` has found. -/
def ArrCall.finish (c : ArrCall γ) (h : Arrays γ) :
    Option (ℕ × ℕ) → Option (ArrEnd γ × Arrays γ)
  | none => some (.fail, h)
  | some (r, i) =>
      match c with
      | .get _ => ((h.row r).bind fun cells => cells[i]?).map fun v => (.ret v, h)
      | .set v _ => (h.row r).map fun cells => (.ret v, h.set r (some (cells.set i v)))

/-- A call with too many parameters is refused. Any other one has its tuple checked and looks its
place up. -/
theorem ArrCall.run_eq (hp : Place h (d :: ds) root f (.arr root))
    (hlen : c.tuple.length = (d :: ds).length) :
    c.run h root = if 9999 < c.params then some (.fail, h) else
      (checkDimParam (c.tuple.map .dbl : List (Elem γ))).bind fun b =>
        if b then (arrGetPtr h (c.tuple.map .dbl) root).bind (c.finish h)
        else some (.fail, h) := by
  have hpos : 0 < c.tuple.length := by
    rw [hlen]
    exact Nat.succ_pos _
  obtain ⟨-, top, htop, -⟩ := hp
  have hrow : (h.row root).isSome := by
    rw [htop]
    rfl
  cases c with
  | get ie =>
      have hpos' : 0 < ie.length := hpos
      have hguard : (2 > ie.length + 1 ∨ ie.length + 1 > 9999) ↔ 9999 < ie.length + 1 := by omega
      rw [ArrCall.run, arrGet, List.length_cons, List.length_map, if_congr hguard rfl rfl,
        apply_ite (Option.map fun r => (r, h))]
      refine if_congr Iff.rfl rfl ?_
      dsimp only [ArrCall.tuple]
      rw [if_pos hrow, Option.bind_eq_bind, Option.map_bind]
      refine congrArg _ (funext fun b => ?_)
      cases b with
      | false => rfl
      | true =>
          refine Option.map_bind.trans (congrArg _ (funext fun p => ?_))
          cases p with
          | none => rfl
          | some p => exact Option.map_map _ _ _
  | set v ie =>
      have hpos' : 0 < ie.length := hpos
      have hguard : (3 > ie.length + 1 + 1 ∨ ie.length + 1 + 1 > 9999) ↔ 9999 < ie.length + 2 := by
        omega
      rw [ArrCall.run, arrSet, List.length_cons, List.length_cons, List.length_map,
        if_congr hguard rfl rfl]
      refine if_congr Iff.rfl rfl ?_
      dsimp only [ArrCall.tuple]
      rw [if_pos hrow]
      refine congrArg _ (funext fun b => ?_)
      cases b with
      | false => rfl
      | true =>
          refine congrArg (Option.bind (arrGetPtr h (ie.map .dbl) root)) (funext fun p => ?_)
          cases p with
          | none => rfl
          | some p => rfl

/-- A call that fits answers as the map does, and the array holds the map that it leaves. -/
theorem exists_run (hp : Place h (d :: ds) root f (.arr root))
    (hlen : c.tuple.length = (d :: ds).length) (hfits : CallFits (d :: ds) c) :
    ∃ h', c.run h root = some ((c.spec (d :: ds) f).1, h') ∧
      Place h' (d :: ds) root (c.spec (d :: ds) f).2 (.arr root) := by
  obtain ⟨hrange, hconv⟩ := hfits
  have hfail : index (d :: ds) c.tuple = none → c.run h root = some (.fail, h) →
      ∃ h', c.run h root = some ((c.spec (d :: ds) f).1, h') ∧
        Place h' (d :: ds) root (c.spec (d :: ds) f).2 (.arr root) := by
    intro hidx hrun
    have hspec : c.spec (d :: ds) f = (.fail, f) := by simp only [ArrCall.spec, hidx]
    rw [hspec]
    exact ⟨h, hrun, hp⟩
  have hrun := ArrCall.run_eq hp hlen
  rcases Nat.lt_or_ge 9999 c.params with hgt | hle
  · have hidx : index (d :: ds) c.tuple = none := hrange.resolve_right (by omega)
    rw [if_pos hgt] at hrun
    exact hfail hidx hrun
  · rw [if_neg (by omega)] at hrun
    rcases checkDimParam_cases (γ := γ) (hconv hle) with ⟨htrue, hie⟩ | ⟨hfalse, x, hx, hno⟩
    · rw [htrue, Option.bind_some, if_pos rfl] at hrun
      rcases arrGetPtr_cases hp hlen hie with ⟨hidx, hptr⟩ | ⟨idx, r, i, cells, hidx, hptr, ha⟩
      · rw [hptr] at hrun
        exact hfail hidx hrun
      · rw [hptr, Option.bind_some] at hrun
        cases c with
        | get ie =>
            have hspec : (ArrCall.get ie).spec (d :: ds) f = (.ret (f idx), f) := by
              simp only [ArrCall.spec, hidx]
            rw [hspec]
            refine ⟨h, ?_, hp⟩
            rw [hrun, ArrCall.finish, ha.row, Option.bind_some, ha.cell]
            rfl
        | set v ie =>
            have hspec : (ArrCall.set v ie).spec (d :: ds) f =
                (.ret v, Function.update f idx v) := by
              simp only [ArrCall.spec, hidx]
            rw [hspec]
            refine ⟨_, ?_, ha.write v⟩
            rw [hrun, ArrCall.finish, ha.row]
            rfl
    · rw [hfalse] at hrun
      exact hfail (index_eq_none hx hno) hrun

theorem fits_of_run (hp : Place h (d :: ds) root f (.arr root))
    (hlen : c.tuple.length = (d :: ds).length)
    (hrun : c.run h root = some ((c.spec (d :: ds) f).1, h')) : CallFits (d :: ds) c := by
  rw [ArrCall.run_eq hp hlen] at hrun
  refine ⟨?_, fun hle => ?_⟩
  · by_contra hno
    obtain ⟨hidx, hgt⟩ := not_or.1 hno
    obtain ⟨idx, hidx⟩ := Option.ne_none_iff_exists'.1 hidx
    rw [if_pos (by omega)] at hrun
    cases c with
    | get ie =>
        simp only [ArrCall.spec, hidx] at hrun
        cases hrun
    | set v ie =>
        simp only [ArrCall.spec, hidx] at hrun
        cases hrun
  · by_contra hno
    rw [if_neg (by omega), checkDimParam_eq_none hno] at hrun
    cases hrun

theorem agrees_iff {cs : List (ArrCall γ)} (hp : Place h (d :: ds) root f (.arr root))
    (hcs : ∀ c ∈ cs, c.tuple.length = (d :: ds).length) :
    Agrees root (d :: ds) h f cs ↔ ∀ c ∈ cs, CallFits (d :: ds) c := by
  induction cs generalizing h f with
  | nil => exact iff_of_true trivial nofun
  | cons c cs ih =>
      obtain ⟨hlen, hrest⟩ := List.forall_mem_cons.1 hcs
      rw [List.forall_mem_cons, Agrees]
      constructor
      · rintro ⟨h', hrun, hag⟩
        have hfits := fits_of_run hp hlen hrun
        obtain ⟨h₁, hrun₁, hp₁⟩ := exists_run hp hlen hfits
        cases hrun.symm.trans hrun₁
        exact ⟨hfits, (ih hp₁ hrest).1 hag⟩
      · rintro ⟨hfits, hall⟩
        obtain ⟨h', hrun, hp'⟩ := exists_run hp hlen hfits
        exact ⟨h', hrun, (ih hp' hrest).2 hall⟩

end Runs

section Make

variable {p : ArrPool γ} {root : ℕ} {xs : List Float} {ds : List ℕ}

theorem exists_natOf (hd : List.Forall₂ (fun x d => natOf x = some d) xs ds) {x : Float}
    (hx : x ∈ xs) : ∃ d, natOf x = some d := by
  induction hd with
  | nil => cases hx
  | cons hx' _ ih =>
      rcases List.mem_cons.1 hx with rfl | hx
      · exact ⟨_, hx'⟩
      · exact ih hx

theorem converts_iff (hd : List.Forall₂ (fun x d => natOf x = some d) xs ds) :
    Converts xs ↔ ∀ d ∈ ds, d < 2 ^ 63 := by
  induction hd with
  | nil => exact iff_of_true trivial nofun
  | @cons x d xs ds hx hd ih =>
      have hlong : (∃ l, longOf x = some l) ↔ d < 2 ^ 63 := by
        rw [longOf_of_natOf hx]
        split
        next hlt => exact iff_of_true ⟨_, rfl⟩ hlt
        next hge => exact iff_of_false nofun hge
      rw [Converts, List.forall_mem_cons, hlong, ih]
      exact and_congr_right fun _ => ⟨fun h => h ⟨d, hx⟩, fun h _ => h⟩

/-- The check lets the dimensions through, and `make_array` is a place of `_arr_alloc`. -/
theorem makeArray_eq (hd : List.Forall₂ (fun x d => natOf x = some d) xs ds)
    (hpos : 0 < ds.length) (hmax : ds.length ≤ 9999) (p : ArrPool γ) :
    makeArray p (xs.map .dbl) = if ∀ d ∈ ds, d < 2 ^ 63 then
      (placeOf (xs.map .dbl) p).map fun r => (.ret r.2, r.1) else none := by
  have hlen : ¬ (1 > (xs.map Elem.dbl : List (Elem γ)).length ∨
      (xs.map Elem.dbl : List (Elem γ)).length > 9999) := by
    rw [List.length_map, hd.length_eq]
    omega
  rw [makeArray, if_neg hlen]
  split
  next hall =>
    have hcheck : checkDimParam (xs.map .dbl : List (Elem γ)) = some true := by
      rcases checkDimParam_cases (γ := γ) ((converts_iff hd).2 hall) with ⟨h, -⟩ | ⟨-, x, hx, hno⟩
      · exact h
      · obtain ⟨d, hsome⟩ := exists_natOf hd hx
        cases hno.symm.trans hsome
    rw [hcheck]
    dsimp only [Option.bind_eq_bind, Option.bind_some]
    rw [if_pos rfl]
    cases hd with
    | nil => cases hpos
    | cons hx hd =>
        rw [List.map_cons, placeOf]
        cases ylacreateCust p with
        | none => rfl
        | some r =>
            dsimp only [Option.bind_eq_bind, Option.bind_some]
            cases arrAlloc _ r.1 r.2 with
            | none => rfl
            | some p' => rfl
  next hall =>
    rw [checkDimParam_eq_none fun hconv => hall ((converts_iff hd).1 hconv)]
    rfl

/-- **Arrays.** The array that `make-array` builds is a map from the tuples of indices to elements
for every sequence of calls with complete tuples, exactly where the dimensions and the indices
convert, the dimensions up to the first 0 are less than 2^31, the pool has a block for each array
and each array in it, and a call in range has at most 9999 parameters. -/
theorem array_iff (p : ArrPool γ) (hd : List.Forall₂ (fun x d => natOf x = some d) xs ds)
    (hpos : 0 < ds.length) (hmax : ds.length ≤ 9999) {cs : List (ArrCall γ)}
    (hcs : ∀ c ∈ cs, c.tuple.length = ds.length) :
    (∃ root p', makeArray p (xs.map .dbl) = some (.ret (.arr root), p') ∧
      Agrees root ds p'.arrays (fun _ => .nil) cs) ↔
        (∀ d ∈ ds, d < 2 ^ 63) ∧ DimsFit ds ∧ blocks ds ≤ p.free ∧ ∀ c ∈ cs, CallFits ds c := by
  obtain ⟨d, ds, rfl⟩ := List.exists_cons_of_length_pos hpos
  rw [makeArray_eq hd hpos hmax]
  constructor
  · rintro ⟨root, p', hmake, hag⟩
    rw [Option.ite_none_right_eq_some, Option.map_eq_some_iff] at hmake
    obtain ⟨hall, r, hr, hmake⟩ := hmake
    refine ⟨hall, ?_⟩
    by_cases hfit : DimsFit (d :: ds)
    · have htaken : blocks (d :: ds) ≤ p.free := by
        rw [free_placeOf hd hr]
        exact Nat.le_add_left _ _
      obtain ⟨p₁, x, hplaceOf, hplaced⟩ := exists_placeOf hd hfit htaken
      cases hr.symm.trans hplaceOf
      have hplace := hplaced.place
      cases hmake
      obtain rfl : root = p.arrays.length := by
        cases hplace.1
        rfl
      exact ⟨hfit, htaken, (agrees_iff hplace hcs).1 hag⟩
    · rw [placeOf_eq_none hd hfit] at hr
      cases hr
  · rintro ⟨hall, hfit, hfree, hcalls⟩
    obtain ⟨p₁, x, hplaceOf, hplaced⟩ := exists_placeOf hd hfit hfree
    have hplace := hplaced.place
    obtain rfl : x = .arr p.arrays.length := hplace.1
    rw [if_pos hall, hplaceOf]
    exact ⟨p.arrays.length, p₁, rfl, (agrees_iff hplace hcs).2 hcalls⟩

/-- `(make-array 2 2)` on a pool of three blocks, a write to it, and reads of this place, of another
one, and of none. -/
theorem array_iff_two : ∃ root p', makeArray (⟨[], 3⟩ : ArrPool Unit) [.dbl 2, .dbl 2] =
    some (.ret (.arr root), p') ∧ Agrees root [2, 2] p'.arrays (fun _ => .nil)
      [.set (.other ()) [1, 0], .get [1, 0], .get [0, 1], .get [0, 2]] := by
  have hdims : List.Forall₂ (fun x d => natOf x = some d) [2, 2] [2, 2] := by
    have htwo : natOf 2 = some 2 := by decide +kernel
    exact .cons htwo (.cons htwo .nil)
  have hzero : longOf 0 = some 0 := by decide +kernel
  have hone : longOf 1 = some 1 := by decide +kernel
  have htwo : longOf 2 = some 2 := by decide +kernel
  have hconv : ∀ {x y : Float} {l m : ℤ}, longOf x = some l → longOf y = some m →
      Converts [x, y] := fun hx hy => ⟨⟨_, hx⟩, fun _ => ⟨⟨_, hy⟩, fun _ => trivial⟩⟩
  refine (array_iff ⟨[], 3⟩ hdims (by decide) (by decide) ?_).2 ⟨by decide, ?_, by decide, ?_⟩
  · simp [ArrCall.tuple]
  · simp [DimsFit]
  · simp only [List.forall_mem_cons]
    exact ⟨⟨.inr (by decide), fun _ => hconv hone hzero⟩,
      ⟨.inr (by decide), fun _ => hconv hone hzero⟩, ⟨.inr (by decide), fun _ => hconv hzero hone⟩,
      ⟨.inr (by decide), fun _ => hconv hzero htwo⟩, nofun⟩

/-- `(make-array 4294967296)`, on a pool of any size. -/
theorem not_array : ¬ ∃ p : ArrPool Unit, ∀ (xs : List Float) (ds : List ℕ)
    (cs : List (ArrCall Unit)),
    List.Forall₂ (fun x d => natOf x = some d) xs ds → 0 < ds.length → ds.length ≤ 9999 →
      (∀ c ∈ cs, c.tuple.length = ds.length) →
        ∃ root p', makeArray p (xs.map .dbl) = some (.ret (.arr root), p') ∧
          Agrees root ds p'.arrays (fun _ => .nil) cs := by
  rintro ⟨p, hall⟩
  have hdims : List.Forall₂ (fun x d => natOf x = some d) [4294967296] [2 ^ 32] :=
    .cons (by decide +kernel) .nil
  obtain ⟨root, p', hmake, -⟩ := hall _ _ [] hdims (by decide) (by decide) nofun
  rw [makeArray_eq hdims (by decide) (by decide), placeOf_eq_none hdims] at hmake
  · split at hmake
    · cases hmake
    · cases hmake
  · simp [DimsFit]

end Make

end Ylext

end Ylisp
