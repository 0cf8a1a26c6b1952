import Mathlib.Data.List.Nodup
import Mathlib.Data.List.Pairwise
import Mathlib.Data.List.Perm.Basic
import Mathlib.Logic.Function.Basic

/-!
# Closing words

A family of words, each of which holds a handle or the value `nil`. A word is touched:
what it holds is closed, unless that is `nil`, and it holds `nil` from then on. A word
is wiped: it holds `blank`, whatever it held before.

What a list of such events closes is, up to the order, what it closes for each word by
itself (`log_perm`). So a handle is closed twice when two words close it, or one word
does so twice.
-/

namespace Closing

variable {α β : Type*} [DecidableEq α] [DecidableEq β]

inductive Event (β : Type*) where
  | touch (w : β)
  | wipe (w : β)

def Event.word : Event β → β
  | .touch w => w
  | .wipe w => w

variable (nil blank : α)

def close (x : α) : List α := if x = nil then [] else [x]

def log (f : β → α) : List (Event β) → List α
  | [] => []
  | .touch w :: ev => close nil (f w) ++ log (Function.update f w nil) ev
  | .wipe w :: ev => log (Function.update f w blank) ev

def after (f : β → α) : List (Event β) → β → α
  | [] => f
  | .touch w :: ev => after (Function.update f w nil) ev
  | .wipe w :: ev => after (Function.update f w blank) ev

theorem log_append (f : β → α) (ev ev' : List (Event β)) :
    log nil blank f (ev ++ ev') =
      log nil blank f ev ++ log nil blank (after nil blank f ev) ev' := by
  induction ev generalizing f with
  | nil => rfl
  | cons e ev ih =>
      cases e with
      | touch w =>
          rw [List.cons_append, log, ih, log, after, List.append_assoc]
      | wipe w =>
          rw [List.cons_append, log, ih, log, after]

theorem log_congr {f g : β → α} {ev : List (Event β)} (h : ∀ e ∈ ev, f e.word = g e.word) :
    log nil blank f ev = log nil blank g ev := by
  induction ev generalizing f g with
  | nil => rfl
  | cons e ev ih =>
      have hupdate : ∀ (w : β) (x : α), ∀ e ∈ ev,
          Function.update f w x e.word = Function.update g w x e.word := by
        intro w x e he
        rw [Function.update_apply, Function.update_apply, h e (List.mem_cons_of_mem _ he)]
      cases e with
      | touch w =>
          have hw : f w = g w := h (.touch w) List.mem_cons_self
          rw [log, log, hw, ih (hupdate w nil)]
      | wipe w => rw [log, log, ih (hupdate w blank)]

section Words

variable {ws : List β}

omit [DecidableEq α] in
theorem flatMap_ite {w : β} (hws : ws.Nodup) (hw : w ∈ ws) (l : List α) :
    ws.flatMap (fun x => if x = w then l else []) = l := by
  induction ws with
  | nil => cases hw
  | cons x ws ih =>
      obtain ⟨hx, hws⟩ := List.nodup_cons.1 hws
      rw [List.flatMap_cons]
      by_cases hxw : x = w
      · have hrest : ws.flatMap (fun y => if y = w then l else []) = [] := by
          rw [List.flatMap_eq_nil_iff]
          intro y hy
          have hyw : y ≠ w := fun h => hx (by rw [hxw, ← h]; exact hy)
          rw [if_neg hyw]
        rw [if_pos hxw, hrest, List.append_nil]
      · rw [if_neg hxw, List.nil_append]
        exact ih hws ((List.mem_cons.1 hw).resolve_left fun h => hxw h.symm)

def about (ev : List (Event β)) (w : β) : List (Event β) := ev.filter fun e => e.word = w

theorem log_perm (f : β → α) (hws : ws.Nodup) {ev : List (Event β)}
    (hev : ∀ e ∈ ev, e.word ∈ ws) :
    (log nil blank f ev).Perm (ws.flatMap fun w => log nil blank f (about ev w)) := by
  induction ev generalizing f with
  | nil =>
      have h : ws.flatMap (fun w => log nil blank f (about [] w)) = [] := by
        rw [List.flatMap_eq_nil_iff]
        exact fun _ _ => rfl
      rw [h]
      exact List.Perm.refl _
  | cons e ev ih =>
      have hrest := fun f' => ih f' fun e he => hev e (List.mem_cons_of_mem _ he)
      have hsame : ∀ (x : α) (w : β), e.word ≠ w →
          log nil blank f (about (e :: ev) w) =
            log nil blank (Function.update f e.word x) (about ev w) := by
        intro x w hw
        rw [about, List.filter_cons_of_neg (by simpa using hw)]
        refine log_congr nil blank fun e' he' => ?_
        have hew : e'.word = w := by simpa using (List.mem_filter.1 he').2
        rw [Function.update_of_ne (by rw [hew]; exact Ne.symm hw)]
      cases e with
      | touch w =>
          have hsplit : ∀ x ∈ ws, log nil blank f (about (.touch w :: ev) x) =
              (if x = w then close nil (f w) else []) ++
                log nil blank (Function.update f w nil) (about ev x) := by
            intro x _
            by_cases hx : x = w
            · rw [if_pos hx, hx, about, List.filter_cons_of_pos (by simp [Event.word]), log]
              rfl
            · rw [if_neg hx, List.nil_append]
              exact hsame nil x (Ne.symm hx)
          rw [log, List.flatMap_congr hsplit]
          refine List.Perm.trans ?_ (List.flatMap_append_perm ws _ _)
          have hw : w ∈ ws := hev (.touch w) List.mem_cons_self
          rw [flatMap_ite hws hw]
          exact (hrest _).append_left _
      | wipe w =>
          have hsplit : ∀ x ∈ ws, log nil blank f (about (.wipe w :: ev) x) =
              log nil blank (Function.update f w blank) (about ev x) := by
            intro x _
            by_cases hx : x = w
            · rw [hx, about, List.filter_cons_of_pos (by simp [Event.word]), log]
              rfl
            · exact hsame blank x (Ne.symm hx)
          rw [log, List.flatMap_congr hsplit]
          exact hrest _

theorem mem_log_iff (f : β → α) (hws : ws.Nodup) {ev : List (Event β)}
    (hev : ∀ e ∈ ev, e.word ∈ ws) (x : α) :
    x ∈ log nil blank f ev ↔ ∃ w ∈ ws, x ∈ log nil blank f (about ev w) := by
  rw [(log_perm nil blank f hws hev).mem_iff, List.mem_flatMap]

/-- Nothing is closed twice when no word closes something twice, and no two words close
the same. -/
theorem nodup_log_iff (f : β → α) (hws : ws.Nodup) {ev : List (Event β)}
    (hev : ∀ e ∈ ev, e.word ∈ ws) :
    (log nil blank f ev).Nodup ↔
      (∀ w ∈ ws, (log nil blank f (about ev w)).Nodup) ∧
        ∀ w ∈ ws, ∀ w' ∈ ws, ∀ x, x ∈ log nil blank f (about ev w) →
          x ∈ log nil blank f (about ev w') → w = w' := by
  rw [(log_perm nil blank f hws hev).nodup_iff, List.nodup_flatMap]
  refine and_congr_right fun _ => ⟨fun hpair w hw w' hw' x hx hx' => ?_, fun happart => ?_⟩
  · by_contra hne
    have hsymm : Std.Symm fun w w' => List.Disjoint (log nil blank f (about ev w))
        (log nil blank f (about ev w')) := ⟨fun _ _ h x hx hx' => h hx' hx⟩
    exact List.Pairwise.forall hpair hw hw' hne hx hx'
  · exact hws.pairwise_of_forall_ne fun w hw w' hw' hne x hx hx' =>
      hne (happart w hw w' hw' x hx hx')

end Words

/-- A word that is only touched closes what it holds, once. -/
theorem log_touches (f : β → α) {w : β} {ev : List (Event β)} (h : ∀ e ∈ ev, e = .touch w) :
    log nil blank f ev = if ev = [] then [] else close nil (f w) := by
  induction ev generalizing f with
  | nil => rfl
  | cons e ev ih =>
      rw [h e List.mem_cons_self, log, ih _ fun e he => h e (List.mem_cons_of_mem _ he),
        Function.update_self, if_neg (List.cons_ne_nil _ _)]
      split
      · rw [List.append_nil]
      · rw [close, close, if_pos rfl, List.append_nil]

/-- A word that is wiped just after it was touched, and touched again, closes `blank`
as well. -/
theorem log_wiped (f : β → α) {w : β} {ev ev' : List (Event β)} (h : ∀ e ∈ ev, e = .touch w)
    (h' : ∀ e ∈ ev', e = .touch w) :
    log nil blank f (ev ++ .touch w :: .wipe w :: ev') =
      close nil (f w) ++ if ev' = [] then [] else close nil blank := by
  have hsplit : ev ++ .touch w :: .wipe w :: ev' = (ev ++ [.touch w]) ++ .wipe w :: ev' := by simp
  have hfirst : ∀ e ∈ ev ++ [.touch w], e = .touch w := by
    intro e he
    rcases List.mem_append.1 he with he | he
    · exact h e he
    · exact List.mem_singleton.1 he
  rw [hsplit, log_append, log_touches nil blank f hfirst, if_neg (by simp), log,
    log_touches nil blank _ h', Function.update_self]

end Closing
