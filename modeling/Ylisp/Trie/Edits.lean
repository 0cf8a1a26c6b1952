import Ylisp.Trie.Entries

/-!
# Tries built by insertions and deletions

`contents` is what a sequence of insertions and deletions stores, as a function of the
keys; `built` is the trie that they leave. A walk of this trie from a prefix visits the
stored keys that extend the prefix (`yltrieWalk_built`).
-/

namespace Ylisp

namespace Trie

variable {α : Type*}

/-- A call of `yltrie_insert` or of `yltrie_delete`. -/
inductive Edit (α : Type*) where
  | insert (key : List UInt8) (v : Option α)
  | delete (key : List UInt8)

namespace Edit

def step : Edit α → Trie α → ℤ × Trie α
  | insert key v, t => t.insertPtr key v
  | delete key, t => t.yltrieDelete key

/-- What is stored after the call: an insertion of an empty key, of a key of 1024 bytes and
more, or of NULL is refused. -/
def store : Edit α → (List UInt8 → Option α) → List UInt8 → Option α
  | insert key v, m =>
      if 1 ≤ key.length ∧ key.length ≤ 1023 ∧ v.isSome then Function.update m key v else m
  | delete key, m => Function.update m key none

end Edit

/-- The trie that the calls leave, from `yltrie_create` on. -/
def built (es : List (Edit α)) : Trie α := (Answer.run Edit.step es yltrieCreate).2

/-- The values that the calls leave at the keys. -/
def contents (es : List (Edit α)) : List UInt8 → Option α :=
  es.foldl (fun m e => e.store m) fun _ => none

theorem canonical_edit (e : Edit α) {t : Trie α} (h : Canonical t) : Canonical (e.step t).2 := by
  cases e with
  | insert key v => exact canonical_insertPtr h key v
  | delete key => exact canonical_yltrieDelete h key

theorem get_edit (e : Edit α) {t : Trie α} (h : Canonical t) :
    (e.step t).2.yltrieGet = e.store t.yltrieGet := by
  cases e with
  | insert key v =>
      have hins := get_insertPtr t key v
      rw [Edit.store]
      split at hins
      next hkey => rw [if_pos hkey]; exact hins.2
      next hkey => rw [if_neg hkey, Edit.step, hins]
  | delete key => exact (yltrieDelete_spec h.1 key).2

theorem run_edits : ∀ (es : List (Edit α)) {t : Trie α}, Canonical t →
    Canonical (Answer.run Edit.step es t).2 ∧
      (Answer.run Edit.step es t).2.yltrieGet = es.foldl (fun m e => e.store m) t.yltrieGet
  | [], _, h => ⟨h, rfl⟩
  | e :: es, t, h => by
      obtain ⟨hcanonical, hget⟩ := run_edits es (canonical_edit e h)
      refine ⟨hcanonical, hget.trans ?_⟩
      rw [get_edit e h, List.foldl_cons]

theorem canonical_built (es : List (Edit α)) : Canonical (built es) :=
  (run_edits es canonical_yltrieCreate).1

theorem get_built (es : List (Edit α)) : (built es).yltrieGet = contents es := by
  rw [built, (run_edits es canonical_yltrieCreate).2, get_yltrieCreate]
  rfl

theorem mem_continuations_built {es : List (Edit α)} {pre key : List UInt8} {x : α} :
    (key, x) ∈ (built es).continuations pre ↔ contents es (pre ++ key) = some x := by
  rw [mem_continuations (canonical_built es).1, get_built]

/-- A walk from a prefix offers to the callback the stored keys that extend it, in the order
of their bytes; it fails only when there is none. -/
theorem yltrieWalk_built {σ : Type*} (es : List (Edit α)) (pre : List UInt8)
    (buf : ℕ → UInt8) (cb : σ → List UInt8 → α → σ × Bool) (s : σ) :
    ∃ l : List (List UInt8 × α), (l.Pairwise fun e e' => e.1 < e'.1) ∧
      (∀ key x, (key, x) ∈ l ↔ contents es (pre ++ key) = some x) ∧
      ((built es).yltrieWalk pre buf cb s = offer cb l s ∨
        l = [] ∧ (built es).yltrieWalk pre buf cb s = (s, -1)) := by
  refine ⟨(built es).continuations pre, continuations_sorted _ pre,
    fun _ _ => mem_continuations_built, ?_⟩
  rw [yltrieWalk_eq]
  by_cases hnull : (getNode (built es).rt pre).isNull = true
  · rw [if_pos hnull]
    exact Or.inr ⟨((isNull_iff_continuations (canonical_built es) pre).1 hnull).2, rfl⟩
  · rw [if_neg hnull]
    exact Or.inl rfl

end Trie

end Ylisp
