import Ylisp.Yld.Failures
import Ylisp.Yld.Session

/-!
# Events

`__print` sends what the interpreter prints or logs to the client: it formats the text into a
buffer that it doubles until the text fits, and sends a packet with it. Each round but the
first goes on with a `va_list` that is used up. `print_iff` says which texts arrive as they
are, whatever those rounds read.
-/

namespace Ylisp

namespace Yld

open DynbOp Mempool Yldynb

def cmdPrint : List UInt8 := cstr "PRINT"

def cmdLog : List UInt8 := cstr "LOG"

/-- How the loop of `__print` ends: at `bail`, with the formatted text, or with bytes past the
end of the buffer. -/
inductive Formatted where
  | bail
  | done (d : Yldynb)
  | overrun

/-- A round of the loop of `__print`, the `i`-th one: an expansion that fails is tried again
after the next round. -/
def formatStep (alloc : Alloc) (text : ℕ → List UInt8) : ℕ × Yldynb → ℕ × Yldynb ⊕ Formatted
  | (i, d) =>
      if (text i).length ≥ 2 ^ 31 then .inr .bail
      else match d.write 0 (stored d.yldynbFreesz (text i)) with
        | none => .inr .overrun
        | some d =>
            if (text i).length < d.limit then .inr (.done ⟨d.limit, (text i).length, d.b⟩)
            else match d.yldynbExpand (alloc i) with
              | .ret _ d => .inl (i + 1, d)
              | _ => .inr .overrun

/-- `__print` with the command `cmd` sends the packet `p`. -/
def Prints (mem : ℕ → Bool) (alloc : Alloc) (fresh : ℕ → UInt8) (cmd : List UInt8)
    (text : ℕ → List UInt8) (p : List UInt8) : Prop :=
  ∃ d b, Machine.Ends (formatStep alloc text) (0, yldynbInit 4096 fresh) (.done d) ∧
    pduBuild mem (Dynb.yldynbInit 4096) (cmd ++ [0]) d.contents (UInt32.ofNat d.sz) = some b ∧
    b.bytes = p

section Print

variable {mem : ℕ → Bool} (alloc : Alloc) (text : ℕ → List UInt8) (i : ℕ) {d : Yldynb}

/-- A text that is shorter than the limit ends the loop. -/
theorem formatStep_done (hd : d.Valid) (hsz : d.sz = 0) (hlen : (text i).length < 2 ^ 31)
    (hfits : (text i).length < d.limit) :
    ∃ d', formatStep alloc text (i, d) = .inr (.done d') ∧ d'.contents = text i ∧
      d'.sz = (text i).length := by
  have hfree : d.yldynbFreesz = d.limit := by
    rw [freesz_eq hd, hsz, Nat.sub_zero]
  have hstored : stored d.limit (text i) = text i ++ [0] := stored_of_lt hfits
  have hlen' : (text i ++ [0]).length = (text i).length + 1 := by
    rw [List.length_append, List.length_singleton]
  have hw : d.write 0 (text i ++ [0]) = some ⟨d.limit, d.sz, overlay d.b 0 (text i ++ [0])⟩ := by
    rw [Yldynb.write, if_neg (List.concat_ne_nil _ _), if_pos (by omega)]
  refine ⟨⟨d.limit, (text i).length, overlay d.b 0 (text i ++ [0])⟩, ?_, ?_, rfl⟩
  · rw [formatStep, if_neg (Nat.not_le.2 hlen), hfree, hstored, hw]
    dsimp only
    rw [if_pos hfits]
  · have hmap := map_overlay d.b 0 (text i ++ [0])
    rw [Nat.zero_add, hlen', List.range_succ, List.map_append, List.range_zero, List.map_nil,
      List.nil_append] at hmap
    exact (List.append_inj_left' hmap rfl)

/-- A longer one leads to another round, with twice the room. -/
theorem formatStep_next (hd : d.Valid) (hsz : d.sz = 0) (hlen : (text i).length < 2 ^ 31)
    (hlong : d.limit ≤ (text i).length) (halloc : (alloc i).isSome) :
    ∃ d', formatStep alloc text (i, d) = .inl (i + 1, d') ∧ d'.Valid ∧ d'.sz = 0 ∧
      d'.limit = d.limit * 2 % 2 ^ 32 := by
  have hfree : d.yldynbFreesz = d.limit := by
    rw [freesz_eq hd, hsz, Nat.sub_zero]
  obtain ⟨d₁, hw⟩ : ∃ d₁, d.write 0 (stored d.limit (text i)) = some d₁ := by
    have hle := length_stored_le (n := d.limit) (text i)
    rw [Yldynb.write]
    split
    · exact ⟨d, rfl⟩
    · rw [if_pos (by omega)]
      exact ⟨_, rfl⟩
  obtain ⟨hl₁, hsz₁⟩ := write_same hw
  obtain ⟨d₂, he, hl₂, hsz₂, -, hvalid⟩ := expand_spec (b := d₁) halloc
    (by rw [hsz₁, hsz]; exact Nat.zero_le _)
  refine ⟨d₂, ?_, hvalid, by rw [hsz₂, hsz₁, hsz], by rw [hl₂, hl₁]⟩
  rw [formatStep, if_neg (Nat.not_le.2 hlen), hfree, hw]
  dsimp only
  rw [if_neg (by rw [hl₁]; exact Nat.not_lt.2 hlong), he]

theorem pduBuild_event (hmem : ∀ n, mem n = true) {cmd t : List UInt8} (hcmd : 0 ∉ cmd)
    (hd : d.contents = t) (hlen : cmd.length + 1 + t.length ≤ 2 ^ 31) :
    ∃ b, pduBuild mem (Dynb.yldynbInit 4096) (cmd ++ [0]) d.contents (UInt32.ofNat d.sz) =
      some b ∧ b.bytes = cmd ++ cmdDelimieter :: t := by
  have htake : cmd.take (cmd.length % 2 ^ 32) = cmd := by
    rw [Nat.mod_eq_of_lt (by omega), List.take_length]
  have hbuild := (build_iff mem (Dynb.pow2_init (a := 12) (by decide)) hcmd
    (show t.length < 2 ^ 32 by omega)).2 ⟨grows_of_mem hmem (by rw [htake]; exact hlen), rfl⟩
  rw [htake] at hbuild
  rw [← length_contents, hd]
  exact hbuild

end Print

/-- An event carries the text that is printed, whatever the later rounds read from the
`va_list`, exactly when the text is shorter than the first buffer. -/
theorem print_iff (mem : ℕ → Bool) (hmem : ∀ n, mem n = true) (alloc : Alloc)
    (halloc : ∀ i, (alloc i).isSome) (fresh : ℕ → UInt8) {cmd : List UInt8}
    (hcmd : cmd = cmdPrint ∨ cmd = cmdLog) (t : List UInt8) :
    (∀ rest : ℕ → List UInt8, Prints mem alloc fresh cmd
        (fun i => if i = 0 then t else rest i) (cmd ++ cmdDelimieter :: t)) ↔
      t.length < 4096 := by
  have hcmd0 : 0 ∉ cmd ∧ cmd.length ≤ 5 := by
    rcases hcmd with rfl | rfl <;> decide
  have hvalid : (yldynbInit 4096 fresh).Valid := valid_init (by decide) fresh
  constructor
  · intro h
    by_contra hlong
    rw [Nat.not_lt] at hlong
    obtain ⟨d, b, hends, hbuild, hbytes⟩ := h fun _ => []
    rcases Nat.lt_or_ge t.length (2 ^ 31) with hlen | hlen
    · -- The second round reads the empty text.
      obtain ⟨d₁, hnext, hvalid₁, hsz₁, hl₁⟩ := formatStep_next alloc
        (fun i => if i = 0 then t else []) 0 hvalid rfl hlen hlong (halloc 0)
      obtain ⟨d₂, hdone, hcontents, -⟩ := formatStep_done alloc
        (fun i => if i = 0 then t else []) 1 hvalid₁ hsz₁ (Nat.two_pow_pos 31)
        (by rw [hl₁]; exact show 0 < 4096 * 2 % 2 ^ 32 by decide)
      have hsame := hends.unique (.of_step hnext (.of_result hdone))
      cases hsame
      obtain ⟨b', hbuild', hbytes'⟩ := pduBuild_event hmem hcmd0.1 hcontents
        (by simp; omega)
      rw [hbuild] at hbuild'
      cases hbuild'
      rw [hbytes] at hbytes'
      have hnil : t = [] := (List.cons.inj (List.append_cancel_left hbytes')).2
      rw [hnil, List.length_nil] at hlong
      omega
    · have hbail : formatStep alloc (fun i => if i = 0 then t else []) (0, yldynbInit 4096 fresh) =
          .inr .bail := if_pos hlen
      cases hends.unique (.of_result hbail)
  · intro hlen rest
    obtain ⟨d, hdone, hcontents, -⟩ := formatStep_done alloc
      (fun i => if i = 0 then t else rest i) 0 hvalid rfl
      (Nat.lt_trans hlen (by decide)) hlen
    obtain ⟨b, hbuild, hbytes⟩ := pduBuild_event hmem hcmd0.1 hcontents
      (by rw [if_pos rfl]; omega)
    exact ⟨d, b, .of_result hdone, hbuild, hbytes⟩

theorem print_iff_hi : (cstr "hi").length < 4096 ∧ ∀ rest : ℕ → List UInt8,
    Prints (fun _ => true) (fun _ => some fun _ => 0) (fun _ => 0) cmdPrint
      (fun i => if i = 0 then cstr "hi" else rest i) (cstr "PRINT:hi") := by
  have hlen : (cstr "hi").length < 4096 := by decide
  exact ⟨hlen, (print_iff (fun _ => true) (fun _ => rfl) (fun _ => some fun _ => 0) (fun _ => rfl)
    (fun _ => 0) (Or.inl rfl) (cstr "hi")).2 hlen⟩

end Yld

end Ylisp
