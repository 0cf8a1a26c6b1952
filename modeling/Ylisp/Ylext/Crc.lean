import Ylisp.Library.Crc
import Ylisp.Library.Machine

/-!
# `crc32`

The loop of `crc32` is unrolled sixteen times, and the `switch` of `unroll16` jumps into the
middle of it. Each entry of the table is the byte after eight shifts of the reflected register
(`crc32Table_eq`), so that `crc32` is the bitwise check of its data (`crc32_spec`).
-/

namespace Ylisp

namespace Ylext

section Unroll

variable {σ : Type*}

/-- `expr`, `k` times; `none` when it reads behind the data. -/
def exprs (expr : σ → Option σ) : ℕ → σ → Option σ
  | 0, s => some s
  | k + 1, s => (expr s).bind (exprs expr k)

def unrollRound (expr : σ → Option σ) (cond : σ → Bool) (s : σ) : σ ⊕ Option σ :=
  if cond s then
    match exprs expr 16 s with
    | some s' => .inl s'
    | none => .inr none
  else .inr (some s)

/-- `unroll16`: the `case` of `count & 0xf` has as many `expr`s behind it in the body of the
`while`; `case 0` stands before the condition. -/
def Unroll16 (expr : σ → Option σ) (count : ℕ) (cond : σ → Bool) (s : σ) (r : Option σ) : Prop :=
  match exprs expr (count % 16) s with
  | some s' => Machine.Ends (unrollRound expr cond) s' r
  | none => r = none

theorem exprs_add (expr : σ → Option σ) (j k : ℕ) (s : σ) :
    exprs expr (j + k) s = (exprs expr j s).bind (exprs expr k) := by
  induction j generalizing s with
  | zero => rw [Nat.zero_add]; rfl
  | succ j ih =>
      rw [Nat.add_right_comm, exprs, exprs]
      cases expr s with
      | none => rfl
      | some s' => exact ih s'

variable {expr : σ → Option σ} {cond : σ → Bool} {left : σ → ℕ}

theorem exprs_left (hexpr : ∀ s, left s ≠ 0 → ∃ s', expr s = some s' ∧ left s' + 1 = left s)
    {k : ℕ} {s : σ} (hk : k ≤ left s) : ∃ s', exprs expr k s = some s' ∧ left s' + k = left s := by
  induction k generalizing s with
  | zero => exact ⟨s, rfl, rfl⟩
  | succ k ih =>
      obtain ⟨s₁, hs₁, hleft₁⟩ := hexpr s (by omega)
      obtain ⟨s', hs', hleft⟩ := ih (s := s₁) (by omega)
      exact ⟨s', by rw [exprs, hs₁]; exact hs', by omega⟩

theorem ends_unrollRound (hcond : ∀ s, cond s = true ↔ left s ≠ 0)
    (hexpr : ∀ s, left s ≠ 0 → ∃ s', expr s = some s' ∧ left s' + 1 = left s) {k : ℕ} {s : σ}
    {r : Option σ} (hk : left s = 16 * k) :
    Machine.Ends (unrollRound expr cond) s r ↔ r = exprs expr (16 * k) s := by
  induction k generalizing s with
  | zero =>
      refine Machine.Ends.result_iff ?_
      rw [unrollRound, if_neg fun h => (hcond s).1 h hk]
      rfl
  | succ k ih =>
      obtain ⟨s', hs', hleft⟩ := exprs_left (k := 16) hexpr (by omega : 16 ≤ left s)
      have hround : unrollRound expr cond s = .inl s' := by
        rw [unrollRound, if_pos ((hcond s).2 (by omega)), hs']
      rw [Machine.Ends.step_iff hround, ih (by omega), Nat.mul_succ, Nat.add_comm, exprs_add, hs']
      rfl

/-- Wherever the loop is entered, `expr` is run as often as there is something left. -/
theorem unroll16_iff (hcond : ∀ s, cond s = true ↔ left s ≠ 0)
    (hexpr : ∀ s, left s ≠ 0 → ∃ s', expr s = some s' ∧ left s' + 1 = left s) (s : σ)
    (r : Option σ) : Unroll16 expr (left s) cond s r ↔ r = exprs expr (left s) s := by
  obtain ⟨s', hs', hleft⟩ := exprs_left hexpr (Nat.mod_le (left s) 16)
  have hsplit := Nat.mod_add_div (left s) 16
  rw [Unroll16, hs']
  dsimp only
  rw [ends_unrollRound hcond hexpr (by omega : left s' = 16 * (left s / 16))]
  conv => rhs; rw [← hsplit, exprs_add, hs']
  rfl

end Unroll

def crc32Table : List (BitVec 32) :=
  [
    0x00000000, 0xF26B8303, 0xE13B70F7, 0x1350F3F4,
    0xC79A971F, 0x35F1141C, 0x26A1E7E8, 0xD4CA64EB,
    0x8AD958CF, 0x78B2DBCC, 0x6BE22838, 0x9989AB3B,
    0x4D43CFD0, 0xBF284CD3, 0xAC78BF27, 0x5E133C24,
    0x105EC76F, 0xE235446C, 0xF165B798, 0x030E349B,
    0xD7C45070, 0x25AFD373, 0x36FF2087, 0xC494A384,
    0x9A879FA0, 0x68EC1CA3, 0x7BBCEF57, 0x89D76C54,
    0x5D1D08BF, 0xAF768BBC, 0xBC267848, 0x4E4DFB4B,
    0x20BD8EDE, 0xD2D60DDD, 0xC186FE29, 0x33ED7D2A,
    0xE72719C1, 0x154C9AC2, 0x061C6936, 0xF477EA35,
    0xAA64D611, 0x580F5512, 0x4B5FA6E6, 0xB93425E5,
    0x6DFE410E, 0x9F95C20D, 0x8CC531F9, 0x7EAEB2FA,
    0x30E349B1, 0xC288CAB2, 0xD1D83946, 0x23B3BA45,
    0xF779DEAE, 0x05125DAD, 0x1642AE59, 0xE4292D5A,
    0xBA3A117E, 0x4851927D, 0x5B016189, 0xA96AE28A,
    0x7DA08661, 0x8FCB0562, 0x9C9BF696, 0x6EF07595,
    0x417B1DBC, 0xB3109EBF, 0xA0406D4B, 0x522BEE48,
    0x86E18AA3, 0x748A09A0, 0x67DAFA54, 0x95B17957,
    0xCBA24573, 0x39C9C670, 0x2A993584, 0xD8F2B687,
    0x0C38D26C, 0xFE53516F, 0xED03A29B, 0x1F682198,
    0x5125DAD3, 0xA34E59D0, 0xB01EAA24, 0x42752927,
    0x96BF4DCC, 0x64D4CECF, 0x77843D3B, 0x85EFBE38,
    0xDBFC821C, 0x2997011F, 0x3AC7F2EB, 0xC8AC71E8,
    0x1C661503, 0xEE0D9600, 0xFD5D65F4, 0x0F36E6F7,
    0x61C69362, 0x93AD1061, 0x80FDE395, 0x72966096,
    0xA65C047D, 0x5437877E, 0x4767748A, 0xB50CF789,
    0xEB1FCBAD, 0x197448AE, 0x0A24BB5A, 0xF84F3859,
    0x2C855CB2, 0xDEEEDFB1, 0xCDBE2C45, 0x3FD5AF46,
    0x7198540D, 0x83F3D70E, 0x90A324FA, 0x62C8A7F9,
    0xB602C312, 0x44694011, 0x5739B3E5, 0xA55230E6,
    0xFB410CC2, 0x092A8FC1, 0x1A7A7C35, 0xE811FF36,
    0x3CDB9BDD, 0xCEB018DE, 0xDDE0EB2A, 0x2F8B6829,
    0x82F63B78, 0x709DB87B, 0x63CD4B8F, 0x91A6C88C,
    0x456CAC67, 0xB7072F64, 0xA457DC90, 0x563C5F93,
    0x082F63B7, 0xFA44E0B4, 0xE9141340, 0x1B7F9043,
    0xCFB5F4A8, 0x3DDE77AB, 0x2E8E845F, 0xDCE5075C,
    0x92A8FC17, 0x60C37F14, 0x73938CE0, 0x81F80FE3,
    0x55326B08, 0xA759E80B, 0xB4091BFF, 0x466298FC,
    0x1871A4D8, 0xEA1A27DB, 0xF94AD42F, 0x0B21572C,
    0xDFEB33C7, 0x2D80B0C4, 0x3ED04330, 0xCCBBC033,
    0xA24BB5A6, 0x502036A5, 0x4370C551, 0xB11B4652,
    0x65D122B9, 0x97BAA1BA, 0x84EA524E, 0x7681D14D,
    0x2892ED69, 0xDAF96E6A, 0xC9A99D9E, 0x3BC21E9D,
    0xEF087A76, 0x1D63F975, 0x0E330A81, 0xFC588982,
    0xB21572C9, 0x407EF1CA, 0x532E023E, 0xA145813D,
    0x758FE5D6, 0x87E466D5, 0x94B49521, 0x66DF1622,
    0x38CC2A06, 0xCAA7A905, 0xD9F75AF1, 0x2B9CD9F2,
    0xFF56BD19, 0x0D3D3E1A, 0x1E6DCDEE, 0xEC064EED,
    0xC38D26C4, 0x31E6A5C7, 0x22B65633, 0xD0DDD530,
    0x0417B1DB, 0xF67C32D8, 0xE52CC12C, 0x1747422F,
    0x49547E0B, 0xBB3FFD08, 0xA86F0EFC, 0x5A048DFF,
    0x8ECEE914, 0x7CA56A17, 0x6FF599E3, 0x9D9E1AE0,
    0xD3D3E1AB, 0x21B862A8, 0x32E8915C, 0xC083125F,
    0x144976B4, 0xE622F5B7, 0xF5720643, 0x07198540,
    0x590AB964, 0xAB613A67, 0xB831C993, 0x4A5A4A90,
    0x9E902E7B, 0x6CFBAD78, 0x7FAB5E8C, 0x8DC0DD8F,
    0xE330A81A, 0x115B2B19, 0x020BD8ED, 0xF0605BEE,
    0x24AA3F05, 0xD6C1BC06, 0xC5914FF2, 0x37FACCF1,
    0x69E9F0D5, 0x9B8273D6, 0x88D28022, 0x7AB90321,
    0xAE7367CA, 0x5C18E4C9, 0x4F48173D, 0xBD23943E,
    0xF36E6F75, 0x0105EC76, 0x12551F82, 0xE03E9C81,
    0x34F4F86A, 0xC69F7B69, 0xD5CF889D, 0x27A40B9E,
    0x79B737BA, 0x8BDCB4B9, 0x988C474D, 0x6AE7C44E,
    0xBE2DA0A5, 0x4C4623A6, 0x5F16D052, 0xAD7D5351]

/-- `_crc32_table[i]`. -/
def crc32Entry (i : BitVec 8) : BitVec 32 := crc32Table.getD i.toNat 0

/-- `crc = (crc >> 8) ^ _crc32_table[(crc ^ (*data++)) & 0xff]`. -/
def crc32Expr : BitVec 32 × List UInt8 → Option (BitVec 32 × List UInt8)
  | (_, []) => none
  | (crc, b :: data) =>
      some ((crc >>> 8) ^^^ crc32Entry ((crc ^^^ b.toBitVec.setWidth 32).setWidth 8), data)

/-- `crc32` returns `r`, or reads behind the data. -/
def Crc32 (crc : BitVec 32) (data : List UInt8) (r : Option (BitVec 32)) : Prop :=
  ∃ s, Unroll16 crc32Expr data.length (fun s => !s.2.isEmpty) (crc, data) s ∧
    r = s.map Prod.fst

def crc32Poly : BitVec 32 := (0x1EDC6F41#32).reverse

theorem crc32Table_eq :
    crc32Table = (List.range 256).map fun i => Crc.shifts crc32Poly 8 (BitVec.ofNat 32 i) := by
  decide +kernel

theorem crc32Entry_eq (i : BitVec 8) :
    crc32Entry i = Crc.shifts crc32Poly 8 (i.setWidth 32) := by
  rw [crc32Entry, crc32Table_eq, List.getD_eq_getElem?_getD, List.getElem?_map,
    List.getElem?_range i.isLt, Option.map_some, Option.getD_some, BitVec.ofNat_toNat]

theorem exprs_crc32Expr (crc : BitVec 32) (data : List UInt8) :
    exprs crc32Expr data.length (crc, data) =
      some (data.foldl (Crc.tableStep crc32Entry) crc, []) := by
  induction data generalizing crc with
  | nil => rfl
  | cons b data ih =>
      have hindex : (crc ^^^ b.toBitVec.setWidth 32).setWidth 8 = Crc.index crc b := by
        rw [BitVec.setWidth_xor, Crc.index, BitVec.setWidth_setWidth_of_le _ (by decide),
          BitVec.setWidth_eq]
      rw [List.length_cons, exprs, crc32Expr, Option.bind_some, ih, hindex, List.foldl_cons,
        Crc.tableStep]

theorem crc32_iff (crc : BitVec 32) (data : List UInt8) (r : Option (BitVec 32)) :
    Crc32 crc data r ↔ r = some (Crc.crc crc32Poly crc data) := by
  have hexpr : ∀ s : BitVec 32 × List UInt8, s.2.length ≠ 0 →
      ∃ s', crc32Expr s = some s' ∧ s'.2.length + 1 = s.2.length := by
    rintro ⟨crc, data⟩ hs
    cases data with
    | nil => exact absurd rfl hs
    | cons b data => exact ⟨_, rfl, rfl⟩
  have hcond : ∀ s : BitVec 32 × List UInt8, (!s.2.isEmpty) = true ↔ s.2.length ≠ 0 :=
    fun s => by simp
  have hunroll := unroll16_iff hcond hexpr (crc, data)
  simp only [Crc32, hunroll, exprs_crc32Expr, exists_eq_left, Option.map_some]
  rw [Crc.foldl_tableStep (by decide) crc32Entry_eq]

/-- `crc32` is the bitwise check of its data, and goes on where another call has ended. -/
theorem crc32_spec (crc : BitVec 32) (data data' : List UInt8) (r : Option (BitVec 32)) :
    (Crc32 crc data r ↔ r = some (Crc.crc crc32Poly crc data)) ∧
      ∃ crc', Crc32 crc data (some crc') ∧ (Crc32 crc (data ++ data') r ↔ Crc32 crc' data' r) := by
  refine ⟨crc32_iff crc data r, Crc.crc crc32Poly crc data, (crc32_iff _ _ _).2 rfl, ?_⟩
  rw [crc32_iff, crc32_iff, Crc.crc_append]

example : Crc.crc crc32Poly 0xFFFFFFFF#32 [49, 50, 51, 52, 53, 54, 55, 56, 57] = 0x1CF96D7C#32 := by
  decide +kernel

end Ylext

end Ylisp
