import Ylisp.Symlookup.Candidates
import Ylisp.Trie.Complete

/-!
# Completion of a name

`ylslu_auto_complete` on the tables that calls lead to: what it answers, and what it stores,
follows from the list of what comes after the prefix in the names of the table.
-/

namespace Ylisp

namespace Symlookup

variable {E : Type*}

/-- The name of an insertion is a C string. -/
def SlutCall.Named : SlutCall E → Prop
  | .insert sym _ _ => 0 ∉ sym
  | .delete _ => True
  | .setDescription _ _ => True

namespace Slut

def ylsluAutoComplete (s : Slut E) (startWith : List UInt8) (buf : ℕ → UInt8) (bufsz : ℕ) :
    Trie.Completion := s.t.yltrieAutoComplete startWith buf bufsz

section Completion

variable {s : Slut E} {startWith : List UInt8}

theorem keys_eq_follow (hs : s.t.Canonical) (startWith : List UInt8) :
    (Trie.getNode s.t.rt startWith).keys = {key | key ∈ s.follow startWith} := by
  ext key
  rw [Set.mem_ofPred_eq, mem_follow hs, hs.1.get, Trie.Node.lookup_append]
  rfl

theorem length_of_mem_follow (hs : s.t.Canonical) {key : List UInt8}
    (h : key ∈ s.follow startWith) : startWith.length + key.length < Trie.maxKeyLen := by
  rw [← List.length_append]
  exact Trie.length_of_get ((mem_follow hs).1 h)

theorem length_commonAll_lt (hs : s.t.Canonical) (h : s.follow startWith ≠ []) :
    (Prefix.commonAll (s.follow startWith)).length < Trie.maxKeyLen := by
  obtain ⟨key, hkey⟩ := List.exists_mem_of_ne_nil _ h
  have hpre := (Prefix.isLongest_commonAll h).common key hkey
  have hlen := length_of_mem_follow hs hkey
  have hle := hpre.length_le
  omega

theorem subsingleton_follow_iff (s : Slut E) (startWith : List UInt8) :
    {key | key ∈ s.follow startWith}.Subsingleton ↔ (s.follow startWith).length ≤ 1 := by
  have hnodup := nodup_of_sorted (follow_sorted s startWith)
  generalize s.follow startWith = keys at hnodup
  constructor
  · intro hsub
    by_contra hlen
    cases keys with
    | nil => exact hlen (Nat.zero_le 1)
    | cons k keys =>
        cases keys with
        | nil => exact hlen (Nat.le_refl 1)
        | cons k' keys =>
            have heq : k = k' := hsub (by simp) (by simp)
            exact (List.nodup_cons.1 hnodup).1 (heq ▸ List.mem_cons_self)
  · intro hlen k hk k' hk'
    cases keys with
    | nil => exact absurd hk List.not_mem_nil
    | cons k₁ keys =>
        have hnil : keys = [] := by
          rw [List.length_cons] at hlen
          exact List.length_eq_zero_iff.1 (by omega)
        subst hnil
        exact (List.mem_singleton.1 hk).trans (List.mem_singleton.1 hk').symm

/-- With nothing to continue the prefix the answer is a failure, or the assertion of the loop
for the empty prefix; else the longest common continuation is stored. -/
theorem autoComplete_spec (hs : s.t.Canonical) (startWith : List UInt8) (buf : ℕ → UInt8)
    (bufsz : ℕ) (hbufsz : Trie.maxKeyLen ≤ bufsz) :
    if s.follow startWith = [] then
      s.ylsluAutoComplete startWith buf bufsz =
        if startWith = [] then .assertion else .ret Trie.yltrieFail buf
    else ∃ buf', (List.range ((Prefix.commonAll (s.follow startWith)).length + 1)).map buf' =
        Prefix.commonAll (s.follow startWith) ++ [0] ∧
      s.ylsluAutoComplete startWith buf bufsz = .ret
        (if (s.follow startWith).length ≤ 1 then Trie.yltrieLeaf else Trie.yltrieBranch) buf' := by
  have hkeys := keys_eq_follow hs startWith
  rw [ylsluAutoComplete, Trie.yltrieAutoComplete]
  have hnode : ¬ (Trie.getNode s.t.rt startWith).isNull = true →
      Trie.getNode s.t.rt startWith ≠ .null := fun h h' => h ((Trie.Node.isNull_iff _).2 h')
  split
  next hnil =>
    split
    next hnull =>
      rw [if_neg ((isNull_iff_follow hs startWith).1 hnull).1]
    next hnull =>
      have hpre : startWith = [] := by
        by_contra hpre
        exact hnull ((isNull_iff_follow hs startWith).2 ⟨hpre, hnil⟩)
      rw [if_pos hpre]
      refine Trie.completeLoop_of_isEmptyLeaf (hnode hnull) ?_
      by_contra hleaf
      have hbounded := s.t.bounded.getNode startWith
      rw [← Nat.mul_sub] at hbounded
      obtain ⟨key, hkey⟩ := Trie.Node.exists_key hbounded (hs.2.2.getNode startWith)
        (Bool.eq_false_iff.2 hleaf)
      rw [hkeys, hnil] at hkey
      exact List.not_mem_nil hkey
  next hne =>
    have hnull : ¬ (Trie.getNode s.t.rt startWith).isNull = true := fun h =>
      hne ((isNull_iff_follow hs startWith).1 h).2
    have hleaf : (Trie.getNode s.t.rt startWith).isEmptyLeaf = false := by
      by_contra hleaf
      have hempty := Trie.Node.keys_of_isEmptyLeaf (Bool.not_eq_false _ ▸ hleaf)
      obtain ⟨key, hkey⟩ := List.exists_mem_of_ne_nil _ hne
      rw [hkeys] at hempty
      exact (Set.mem_empty_iff_false key).1 (hempty ▸ hkey)
    have hbounded := s.t.bounded.getNode startWith
    rw [← Nat.mul_sub] at hbounded
    have hpos : 1 ≤ bufsz := Nat.le_trans (by decide) hbufsz
    obtain ⟨w, r, buf', hw, hret, hr⟩ := Trie.completeLoop_spec _ hbounded
      (hs.2.2.getNode startWith) hleaf (hnode hnull) buf buf [] ⟨rfl, fun _ _ => rfl⟩ hpos
    rw [hkeys] at hw hr
    have hcommon : w = Prefix.commonAll (s.follow startWith) :=
      hw.unique (Prefix.isLongest_commonAll hne)
    subst hcommon
    rw [if_pos (by
      have hlen := length_commonAll_lt hs hne
      rw [List.length_nil]
      omega), subsingleton_follow_iff, List.nil_append] at hr
    have hbytes := hr.1.bytes
    rw [List.length_append, List.length_singleton] at hbytes
    refine ⟨buf', hbytes, ?_⟩
    rw [if_neg hnull]
    refine hret.trans ?_
    split
    next hlen => rw [hr.2.1 hlen]
    next hlen => rw [hr.2.2 hlen]

end Completion

section Names

variable {s : Slut E}

/-- The names of a table are names that were inserted. -/
theorem named_step (c : SlutCall E) (hc : c.Named)
    (hs : s.t.Canonical ∧ ∀ sym, (s.t.yltrieGet sym).isSome → 0 ∉ sym) :
    (step c s).2.t.Canonical ∧ ∀ sym, ((step c s).2.t.yltrieGet sym).isSome → 0 ∉ sym := by
  refine ⟨canonical_step c hs.1, fun sym' h => ?_⟩
  cases c with
  | insert sym sty e =>
      rw [step, t_ylsluInsert] at h
      have hget := Trie.get_insertPtr s.t sym (some s.nr)
      change if _ then (_ ∧ (s.t.yltrieInsert sym s.nr).2.yltrieGet = _) else
        s.t.yltrieInsert sym s.nr = _ at hget
      split at hget
      · rw [hget.2] at h
        by_cases heq : sym' = sym
        · exact heq ▸ hc
        · rw [Function.update_of_ne heq] at h
          exact hs.2 sym' h
      · rw [hget] at h
        exact hs.2 sym' h
  | delete sym =>
      rw [step, ylsluDelete_eq hs.1.1] at h
      change ((s.t.yltrieDelete sym).2.yltrieGet sym').isSome at h
      rw [(Trie.yltrieDelete_spec hs.1.1 sym).2] at h
      by_cases heq : sym' = sym
      · rw [heq, Function.update_self] at h
        cases h
      · rw [Function.update_of_ne heq] at h
        exact hs.2 sym' h
  | setDescription sym description =>
      rw [step, t_ylsluSetDescription] at h
      exact hs.2 sym' h

theorem named_run {calls : List (SlutCall E)} (hcalls : ∀ c ∈ calls, c.Named)
    (value : ℕ → Value E) (text : ℕ → List UInt8) :
    (Answer.run step calls (ylsluCreate value text)).2.t.Canonical ∧ ∀ sym,
      ((Answer.run step calls (ylsluCreate value text)).2.t.yltrieGet sym).isSome → 0 ∉ sym := by
  refine Answer.run_induction
    (I := fun s : Slut E => s.t.Canonical ∧ ∀ sym, (s.t.yltrieGet sym).isSome → 0 ∉ sym)
    (Q := fun c _ => c.Named) (fun c s hc hs => named_step c hc hs) calls _
    (Answer.allSteps_of_forall (fun c hc _ => hcalls c hc) _)
    ⟨Trie.canonical_yltrieCreate, fun sym h => ?_⟩
  obtain ⟨v, hv⟩ := Option.isSome_iff_exists.1 h
  have hmem := Trie.mem_values_of_yltrieGet hv
  rw [ylsluCreate, Trie.values_yltrieCreate] at hmem
  exact absurd hmem List.not_mem_nil

end Names

end Slut

end Symlookup

end Ylisp
