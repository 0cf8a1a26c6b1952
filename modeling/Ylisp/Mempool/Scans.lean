import Ylisp.Mempool.Bbs
import Ylisp.Mempool.GcSpec

/-!
# What the scans read

The headers of `_mbt_foreach_used` and of `stack_foreach` fetch the next element and test the index
then. A scan carries the positions that its header reads, and its loop is the one of `foreachUsed`
or the one over the registered blocks (`gcScan_pool`).

After the last element each scan reads one more. For `fbp` this is the position behind the array,
whatever is in use and whatever the body frees; for the stack it is behind the array only when the
stack is full (`scans_inBounds`).
-/

namespace Ylisp

namespace Mempool

variable {n : ℕ} {σ : Type*} {α : Type*}

/-- `_mbt_foreach_used`, with the positions of `fbp` that its header reads. -/
def usedScan (mbt : σ → Mbt n) (body : σ → Fin n → σ) (s : σ) : σ × List ℕ :=
  Loop.foreach (mbt s).fbi n
    (fun x i => (body x.1 ((mbt x.1).fbp i), x.2 ++ [i.val + 1])) (s, [(mbt s).fbi])

/-- `stack_foreach`, with the positions of `item` that its header reads. -/
def stackScan (stk : Ylstk α) (body : σ → Option α → σ) (s : σ) : σ × List ℕ :=
  Loop.foreach 0 stk.sz
    (fun x i => (body x.1 (stk.item[i.val]?).join, x.2 ++ [i.val + 1])) (s, [0])

def InBounds (size : ℕ) (reads : List ℕ) : Prop := ∀ i ∈ reads, i < size

structure GcScan (n : ℕ) where
  pool : Pool n
  clear : List ℕ
  item : List ℕ
  sweep : List ℕ

def gcScan (p : Pool n) (stk : Ylstk (Ref n)) : GcScan n :=
  let (p, clear) := usedScan Pool.m (fun p b => p.setGcmark false (.blk b)) p
  let (p, item) := stackScan stk
    (fun p e => match e with | some e => gcmark (depth n) p e | none => p) p
  let p := ylsluGcmark (p.cxtl.foldl ylsluGcmark p) (p.cxtl.foldl ylsluGcmark p).gsym
  let (p, sweep) := usedScan Pool.m
    (fun p b => if p.isGcmark (.blk b) then p else cleanBlock p b) p
  ⟨p, clear, item, sweep⟩

/-- The scan of `_mod_exit`. -/
def modExitScan (p : Pool n) : Pool n × List ℕ := usedScan Pool.m yleclean p

structure ScansInBounds (p : Pool n) (stk : Ylstk (Ref n)) : Prop where
  clear : InBounds n (gcScan p stk).clear
  item : InBounds stk.limit (gcScan p stk).item
  sweep : InBounds n (gcScan p stk).sweep
  exit : InBounds n (modExitScan p).2

section Reads

variable {a : ℕ}

/-- The loop is the one that does not count its reads, and it reads one position more than it makes
rounds. -/
theorem foreach_reads (ha : a ≤ n) (f : σ → Fin n → σ) (s : σ) :
    Loop.foreach a n (fun x i => (f x.1 i, x.2 ++ [i.val + 1])) (s, [a]) =
      (Loop.foreach a n f s, List.range' a (n + 1 - a)) := by
  have key : ∀ (d b : ℕ) (s : σ) (rs : List ℕ), b + d = n →
      Loop.foreach b n (fun x i => (f x.1 i, x.2 ++ [i.val + 1])) (s, rs) =
        (Loop.foreach b n f s, rs ++ List.range' (b + 1) d) := by
    intro d
    induction d with
    | zero =>
        intro b s rs hb
        rw [Loop.foreach_of_le (by omega), Loop.foreach_of_le (by omega)]
        simp
    | succ d ih =>
        intro b s rs hb
        rw [Loop.foreach_of_lt (by omega), ih (b + 1) _ _ (by omega),
          Loop.foreach_of_lt (a := b) (by omega) f, List.append_assoc]
        rfl
  rw [key (n - a) a s [a] (by omega), show n + 1 - a = (n - a) + 1 by omega]
  rfl

theorem usedScan_eq (mbt : σ → Mbt n) (body : σ → Fin n → σ) (s : σ) :
    usedScan mbt body s =
      (foreachUsed mbt body s, List.range' (mbt s).fbi (n + 1 - (mbt s).fbi)) :=
  foreach_reads (mbt s).fbi_le (fun s i => body s ((mbt s).fbp i)) s

/-- The last read of a scan over the used blocks is behind `fbp`. -/
theorem not_inBounds_usedScan (mbt : σ → Mbt n) (body : σ → Fin n → σ) (s : σ) :
    ¬ InBounds n (usedScan mbt body s).2 := by
  intro h
  have hle := (mbt s).fbi_le
  rw [usedScan_eq] at h
  exact lt_irrefl n (h n (List.mem_range'_1.2 ⟨hle, by omega⟩))

theorem stackScan_eq (stk : Ylstk α) (body : σ → Option α → σ) (s : σ) :
    stackScan stk body s =
      (Loop.foreach 0 stk.sz (fun s i => body s (stk.item[i.val]?).join) s,
        List.range' 0 (stk.sz + 1)) :=
  foreach_reads (Nat.zero_le _) (fun s i => body s (stk.item[i.val]?).join) s

/-- The last read of a scan over the stack is behind `item` when the stack is full. -/
theorem inBounds_stackScan (stk : Ylstk α) (body : σ → Option α → σ) (s : σ) :
    InBounds stk.limit (stackScan stk body s).2 ↔ stk.sz < stk.limit := by
  rw [stackScan_eq]
  constructor
  · exact fun h => h stk.sz (List.mem_range'_1.2 ⟨Nat.zero_le _, by omega⟩)
  · intro hlt i hi
    have hmem := List.mem_range'_1.1 hi
    omega

end Reads

section Results

/-- The scan over the stack goes through the registered blocks, the first one first. -/
theorem stackScan_fst {stk : Ylstk α} {l : List α} (hs : stk.Holds l) (body : σ → Option α → σ)
    (s : σ) : (stackScan stk body s).1 = l.reverse.foldl (fun s e => body s (some e)) s := by
  have hread : ((List.finRange stk.sz).map fun i => (stk.item[i.val]?).join) =
      l.reverse.map some := by
    refine List.ext_getElem ?_ fun i hi hi' => ?_
    · simp [hs.size]
    · have hlt : i < stk.sz := by simpa using hi
      have hitem : (stk.item.take stk.sz)[i]? = (l.reverse.map some)[i]? := by rw [hs.items]
      rw [List.getElem?_take_of_lt hlt, List.getElem?_eq_getElem hi'] at hitem
      rw [List.getElem_map, List.getElem_finRange]
      show (stk.item[i]?).join = _
      rw [hitem, Option.join_some]
  rw [stackScan_eq, Loop.foreach, List.drop_zero, ← List.foldl_map
    (f := fun i : Fin stk.sz => (stk.item[i.val]?).join) (g := body), hread, List.foldl_map]

theorem gcScan_pool {p : Pool n} {stk : Ylstk (Ref n)} (hp : p.Wf) (hs : stk.Holds p.bbs) :
    (gcScan p stk).pool = gc p := by
  obtain ⟨hclear, -, -⟩ := clearMarks_spec hp
  rw [← hclear.bbs] at hs
  simp only [gcScan, usedScan_eq, stackScan_fst hs]
  rfl

/-- The scan over the stack is in bounds exactly where the stack is not full. -/
theorem inBounds_item (p : Pool n) (stk : Ylstk (Ref n)) :
    InBounds stk.limit (gcScan p stk).item ↔ stk.sz < stk.limit := by
  rw [gcScan]
  exact inBounds_stackScan stk _ _

theorem not_inBounds_clear (p : Pool n) (stk : Ylstk (Ref n)) :
    ¬ InBounds n (gcScan p stk).clear := by
  rw [gcScan]
  exact not_inBounds_usedScan Pool.m _ _

theorem not_inBounds_sweep (p : Pool n) (stk : Ylstk (Ref n)) :
    ¬ InBounds n (gcScan p stk).sweep := by
  rw [gcScan]
  exact not_inBounds_usedScan Pool.m _ _

/-- The pool that `_mod_init` leaves. -/
def initPool (n : ℕ) : Pool n where
  m := mbtCreate n
  blk := fun _ => Yle.clean
  statMark := fun _ => false
  statSt := fun _ => 0
  bbs := []
  cxtl := []
  gsym := Trie.yltrieCreate
  closed := []
  killed := []

/-- **The scans of the collector and of the module's exit.** Whatever is in use, all three scans
over the used blocks read behind `fbp`. -/
theorem scans_not_inBounds (p : Pool n) (stk : Ylstk (Ref n)) :
    ¬ ScansInBounds p stk ∧ ¬ InBounds n (gcScan p stk).clear ∧
      ¬ InBounds n (gcScan p stk).sweep ∧ ¬ InBounds n (modExitScan p).2 :=
  ⟨fun h => not_inBounds_clear p stk h.clear, not_inBounds_clear p stk, not_inBounds_sweep p stk,
    not_inBounds_usedScan Pool.m _ p⟩

/-- A collection in an unused pool. -/
theorem not_scansInBounds : ¬ ScansInBounds (initPool 1024) (ylstkCreate 512) :=
  fun h => not_inBounds_clear _ _ h.clear

end Results

end Mempool

end Ylisp
