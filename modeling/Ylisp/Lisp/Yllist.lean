import Ylisp.Library.Linked
import Ylisp.Library.Machine

/-!
# Circular lists

The operations of `yllist.h` on a memory of links; an access to a link that is not there is
undefined. A list that they have built is a circle (`Built.circle`).

The four macros that allow the removal of the current element are one loop, in a direction and
with a place to start at. The two that iterate over links start at the head itself, where the
loop ends: `iterates_iff`.
-/

namespace Ylisp

namespace Lisp

open Linked

variable {α : Type*} [DecidableEq α]

def yllistInitLink (m : Mem α) (link : α) : Option (Mem α) := do
  let m ← m.set .prev link link
  m.set .next link link

def yllistAdd (m : Mem α) (prev next anew : α) : Option (Mem α) := do
  let m ← m.set .next prev anew
  let m ← m.set .prev next anew
  let m ← m.set .next anew next
  m.set .prev anew prev

def yllistAddNext (m : Mem α) (link anew : α) : Option (Mem α) := do
  yllistAdd m link (← m.get .next link) anew

def yllistAddPrev (m : Mem α) (link anew : α) : Option (Mem α) := do
  yllistAdd m (← m.get .prev link) link anew

def yllistAddFirst (m : Mem α) (head anew : α) : Option (Mem α) := yllistAddNext m head anew

def yllistAddLast (m : Mem α) (head anew : α) : Option (Mem α) := yllistAddPrev m head anew

/-- `__yllist_del`. -/
def delBetween (m : Mem α) (prev next : α) : Option (Mem α) := do
  let m ← m.set .next prev next
  m.set .prev next prev

def yllistDel (m : Mem α) (link : α) : Option (Mem α) := do
  delBetween m (← m.get .prev link) (← m.get .next link)

def yllistReplace (m : Mem α) (old anew : α) : Option (Mem α) := do
  let m ← m.set .next anew (← m.get .next old)
  let m ← m.set .prev (← m.get .next anew) anew
  let m ← m.set .prev anew (← m.get .prev old)
  m.set .next (← m.get .prev anew) anew

/-- A list with the head `h` and the elements `l` that the operations have built. Links that are
not on it may change in any way. -/
inductive Built : Mem α → α → List α → Prop
  | init {m m' : Mem α} {h : α} (hm : yllistInitLink m h = some m') : Built m' h []
  | other {m m' : Mem α} {h : α} {l : List α} (hb : Built m h l)
      (hm : ∀ y ∈ h :: l, m' y = m y) : Built m' h l
  | addNext {m m' : Mem α} {h k x : α} {l l' u v : List α} (hb : Built m h l)
      (hx : x ∉ h :: l) (hl : h :: l = u ++ k :: v) (hl' : h :: l' = u ++ k :: x :: v)
      (hm : yllistAddNext m k x = some m') : Built m' h l'
  | addPrev {m m' : Mem α} {h k x : α} {l l' u v : List α} (hb : Built m h l)
      (hx : x ∉ h :: l) (hl : l ++ [h] = u ++ k :: v) (hl' : l' ++ [h] = u ++ x :: k :: v)
      (hm : yllistAddPrev m k x = some m') : Built m' h l'
  | del {m m' : Mem α} {h k : α} {u v : List α} (hb : Built m h (u ++ k :: v))
      (hm : yllistDel m k = some m') : Built m' h (u ++ v)
  | replace {m m' : Mem α} {h k x : α} {u v : List α} (hb : Built m h (u ++ k :: v))
      (hx : x ∉ h :: (u ++ k :: v)) (hm : yllistReplace m k x = some m') :
      Built m' h (u ++ x :: v)

theorem Built.addFirst {m m' : Mem α} {h x : α} {l : List α} (hb : Built m h l)
    (hx : x ∉ h :: l) (hm : yllistAddFirst m h x = some m') : Built m' h (x :: l) :=
  hb.addNext (u := []) hx rfl rfl hm

theorem Built.addLast {m m' : Mem α} {h x : α} {l : List α} (hb : Built m h l)
    (hx : x ∉ h :: l) (hm : yllistAddLast m h x = some m') : Built m' h (l ++ [x]) :=
  hb.addPrev (v := []) hx rfl (List.append_assoc ..) hm

section Operations

variable {m m' : Mem α} {h k p s x : α} {l : List α}

theorem joined_of_delBetween (hm : delBetween m p s = some m') : Joined m m' .next p s := by
  obtain ⟨m₁, h₁, h₂⟩ := Option.bind_eq_some_iff.1 hm
  have s₁ := sets_of_set h₁
  have s₂ := sets_of_set h₂
  refine ⟨⟨?_, s₂.self⟩, fun y hy => ?_, fun z hz => ?_⟩
  · rw [s₂.other .next p nofun, s₁.self]
  · rw [s₂.other .next y nofun, s₁.other .next y fun _ => hy]
  · exact (s₂.other .prev z fun _ => hz).trans (s₁.other .prev z nofun)

theorem inserted_of_yllistAdd (hp : x ≠ p) (hs : x ≠ s) (hm : yllistAdd m p s x = some m') :
    Inserted m m' .next p s x := by
  obtain ⟨m₁, h₁, hm⟩ := Option.bind_eq_some_iff.1 hm
  obtain ⟨m₂, h₂, hm⟩ := Option.bind_eq_some_iff.1 hm
  obtain ⟨m₃, h₃, h₄⟩ := Option.bind_eq_some_iff.1 hm
  have s₁ := sets_of_set h₁
  have s₂ := sets_of_set h₂
  have s₃ := sets_of_set h₃
  have s₄ := sets_of_set h₄
  refine ⟨⟨?_, s₄.self⟩, ⟨?_, ?_⟩, fun y hy hyx => ?_, fun z hz hzx => ?_⟩
  · rw [s₄.other .next p nofun, s₃.other .next p fun _ => hp.symm, s₂.other .next p nofun,
      s₁.self]
  · rw [s₄.other .next x nofun, s₃.self]
  · rw [Dir.flip, s₄.other .prev s fun _ => hs.symm, s₃.other .prev s nofun, s₂.self]
  · rw [s₄.other .next y nofun, s₃.other .next y fun _ => hyx, s₂.other .next y nofun,
      s₁.other .next y fun _ => hy]
  · rw [Dir.flip, s₄.other .prev z fun _ => hzx, s₃.other .prev z nofun,
      s₂.other .prev z fun _ => hz, s₁.other .prev z nofun]

theorem inserted_of_yllistReplace (hp : Edge m .next p k) (hk : Edge m .next k s) (hks : k ≠ s)
    (hxp : x ≠ p) (hxs : x ≠ s) (hm : yllistReplace m k x = some m') :
    Inserted m m' .next p s x := by
  obtain ⟨_, hs, hm⟩ := Option.bind_eq_some_iff.1 hm
  cases hk.1.symm.trans hs
  obtain ⟨m₁, h₁, hm⟩ := Option.bind_eq_some_iff.1 hm
  have s₁ := sets_of_set h₁
  obtain ⟨_, hs, hm⟩ := Option.bind_eq_some_iff.1 hm
  cases s₁.self.symm.trans hs
  obtain ⟨m₂, h₂, hm⟩ := Option.bind_eq_some_iff.1 hm
  have s₂ := sets_of_set h₂
  obtain ⟨_, hp', hm⟩ := Option.bind_eq_some_iff.1 hm
  rw [s₂.other .prev k fun _ => hks, s₁.other .prev k nofun] at hp'
  cases hp.2.symm.trans hp'
  obtain ⟨m₃, h₃, hm⟩ := Option.bind_eq_some_iff.1 hm
  have s₃ := sets_of_set h₃
  obtain ⟨_, hp', h₄⟩ := Option.bind_eq_some_iff.1 hm
  cases s₃.self.symm.trans hp'
  have s₄ := sets_of_set h₄
  refine ⟨⟨s₄.self, ?_⟩, ⟨?_, ?_⟩, fun y hy hyx => ?_, fun z hz hzx => ?_⟩
  · rw [Dir.flip, s₄.other .prev x nofun, s₃.self]
  · rw [s₄.other .next x fun _ => hxp, s₃.other .next x nofun, s₂.other .next x nofun, s₁.self]
  · rw [Dir.flip, s₄.other .prev s nofun, s₃.other .prev s fun _ => hxs.symm, s₂.self]
  · rw [s₄.other .next y fun _ => hy, s₃.other .next y nofun, s₂.other .next y nofun,
      s₁.other .next y fun _ => hyx]
  · rw [Dir.flip, s₄.other .prev z nofun, s₃.other .prev z fun _ => hzx,
      s₂.other .prev z fun _ => hz, s₁.other .prev z nofun]

theorem circle_yllistDel {v : List α} (hc : Circle m .next h (l ++ k :: v))
    (hm : yllistDel m k = some m') : Circle m' .next h (l ++ v) := by
  obtain ⟨p, s, hp, hs, -⟩ := hc.between
  obtain ⟨_, hp', hm⟩ := Option.bind_eq_some_iff.1 hm
  cases hp.2.symm.trans hp'
  obtain ⟨_, hs', hm⟩ := Option.bind_eq_some_iff.1 hm
  cases hs.1.symm.trans hs'
  exact hc.unlink hp hs (joined_of_delBetween hm)

theorem Built.circle (hb : Built m h l) : Circle m .next h l := by
  induction hb with
  | init hm =>
      obtain ⟨m₁, h₁, h₂⟩ := Option.bind_eq_some_iff.1 hm
      have s₁ := sets_of_set h₁
      have s₂ := sets_of_set h₂
      refine ⟨List.nodup_singleton _, ⟨s₂.self, ?_⟩, rfl⟩
      exact (s₂.other .prev _ nofun).trans s₁.self
  | other _ hm ih => exact ih.frame hm
  | @addNext m m' h k x l l' u v _ hx hl hl' hm ih =>
      obtain ⟨s, hs, hm⟩ := Option.bind_eq_some_iff.1 hm
      have hk : k ∈ h :: l := by
        rw [hl]
        simp
      have hsm := ih.mem_of_get hk hs
      have hxk : x ≠ k := fun heq => hx (heq ▸ hk)
      have hxs : x ≠ s := fun heq => hx (heq ▸ hsm)
      exact ih.insert hx hl hl' hs (inserted_of_yllistAdd hxk hxs hm)
  | @addPrev m m' h k x l l' u v _ hx hl hl' hm ih =>
      obtain ⟨s, hs, hm⟩ := Option.bind_eq_some_iff.1 hm
      have hk : k ∈ h :: l.reverse := by
        have hkl : k ∈ l ++ [h] := by
          rw [hl]
          simp
        simpa [or_comm] using hkl
      have hx' : x ∉ h :: l.reverse := by simpa using hx
      have hsm := ih.flip.mem_of_get hk hs
      have hxk : x ≠ k := fun heq => hx' (heq ▸ hk)
      have hxs : x ≠ s := fun heq => hx' (heq ▸ hsm)
      have hrev : h :: l.reverse = v.reverse ++ k :: u.reverse := by
        simpa using congrArg List.reverse hl
      have hrev' : h :: l'.reverse = v.reverse ++ k :: x :: u.reverse := by
        simpa using congrArg List.reverse hl'
      have hc := (ih.flip.insert hx' hrev hrev' hs (inserted_of_yllistAdd hxs hxk hm).flip).flip
      rwa [List.reverse_reverse] at hc
  | del _ hm ih => exact circle_yllistDel ih hm
  | replace _ hx hm ih =>
      obtain ⟨p, s, hp, hs, hpm, hsm, hks⟩ := ih.between
      exact ih.replace hx hp hs (inserted_of_yllistReplace hp hs hks (fun heq => hx (heq ▸ hpm))
        (fun heq => hx (heq ▸ hsm)) hm)

end Operations

/-! ### The macros -/

/-- What the body of a loop does with the current element: nothing, `yllist_del`, or
`yllist_del` and `free`. -/
inductive Act where
  | keep | del | free
  deriving DecidableEq

def Act.run (m : Mem α) (x : α) : Act → Option (Mem α)
  | .keep => some m
  | .del => yllistDel m x
  | .free => do
      let m ← yllistDel m x
      some (Function.update m x none)

/-- The variables `pos` and `n` of the macros, the memory, and the elements that the body has been
given. -/
structure Iter (α : Type*) where
  pos : α
  n : α
  mem : Mem α
  seen : List α

/-- A round: the condition, the body and the step. What the body does depends on the elements that
it has been given. An element is named by its link, as `container_of` is one-to-one. -/
def removalSafeRound (d : Dir) (head : α) (act : List α → α → Act) (s : Iter α) :
    Iter α ⊕ Option (List α × Mem α) :=
  if s.pos ≠ head then
    match (act s.seen s.pos).run s.mem s.pos with
    | none => .inr none
    | some m =>
        match m.get d s.n with
        | none => .inr none
        | some n => .inl ⟨s.n, n, m, s.seen ++ [s.pos]⟩
  else .inr (some (s.seen, s.mem))

def removalSafe (d : Dir) (m : Mem α) (head : α) (act : List α → α → Act) (pos : Option α)
    (r : Option (List α × Mem α)) : Prop :=
  match pos with
  | none => r = none
  | some pos =>
      match m.get d pos with
      | none => r = none
      | some n => Machine.Ends (removalSafeRound d head act) ⟨pos, n, m, []⟩ r

def yllistForeachRemovalSafe (m : Mem α) (head : α) (act : List α → α → Act)
    (r : Option (List α × Mem α)) : Prop :=
  removalSafe .next m head act (some head) r

def yllistForeachRemovalSafeBackward (m : Mem α) (head : α) (act : List α → α → Act)
    (r : Option (List α × Mem α)) : Prop :=
  removalSafe .prev m head act (some head) r

def yllistForeachItemRemovalSafe (m : Mem α) (head : α) (act : List α → α → Act)
    (r : Option (List α × Mem α)) : Prop :=
  removalSafe .next m head act (m.get .next head) r

def yllistForeachItemRemovalSafeBackward (m : Mem α) (head : α) (act : List α → α → Act)
    (r : Option (List α × Mem α)) : Prop :=
  removalSafe .prev m head act (m.get .prev head) r

inductive Foreach where
  | link | linkBackward | item | itemBackward
  deriving DecidableEq

def Foreach.run (v : Foreach) : Mem α → α → (List α → α → Act) → Option (List α × Mem α) → Prop :=
  match v with
  | .link => yllistForeachRemovalSafe
  | .linkBackward => yllistForeachRemovalSafeBackward
  | .item => yllistForeachItemRemovalSafe
  | .itemBackward => yllistForeachItemRemovalSafeBackward

def Foreach.order (v : Foreach) (l : List α) : List α :=
  match v with
  | .link | .item => l
  | .linkBackward | .itemBackward => l.reverse

/-- The elements of the second list that are left, when the body has been given those of the
first one. -/
def kept (act : List α → α → Act) : List α → List α → List α
  | _, [] => []
  | seen, x :: xs =>
      if act seen x = .keep then x :: kept act (seen ++ [x]) xs else kept act (seen ++ [x]) xs

/-- Every element is visited once, in the order of the list or in the reverse one, and what has
not been unlinked is a circle. -/
def Iterates (v : Foreach) (m : Mem α) (h : α) (l : List α) (act : List α → α → Act) : Prop :=
  ∃ m', v.run m h act (some (v.order l, m')) ∧
    Circle m' .next h (v.order (kept act [] (v.order l)))

section Macros

variable {m m' : Mem α} {d : Dir} {h k x n : α} {l ks xs seen : List α}
  {act : List α → α → Act}

/-- The element is unlinked, whatever the direction that the circle is looked at in. -/
theorem exists_yllistDel (hc : Circle m d h (ks ++ x :: xs)) :
    ∃ m', yllistDel m x = some m' ∧ Circle m' d h (ks ++ xs) := by
  have hnext : ∀ {ks xs : List α}, Circle m .next h (ks ++ x :: xs) →
      ∃ m', yllistDel m x = some m' ∧ Circle m' .next h (ks ++ xs) := by
    intro ks xs hc
    obtain ⟨p, s, hp, hs, -⟩ := hc.between
    obtain ⟨m₁, h₁⟩ := exists_set hp.1 .next s
    have hback : m₁.get .prev s = some x := ((sets_of_set h₁).other .prev s nofun).trans hs.2
    obtain ⟨m₂, h₂⟩ := exists_set hback .prev p
    have hdel : yllistDel m x = some m₂ := by
      rw [yllistDel, show m.get .prev x = some p from hp.2, hs.1]
      show delBetween m p s = some m₂
      exact Option.bind_eq_some_iff.2 ⟨m₁, h₁, h₂⟩
    exact ⟨m₂, hdel, circle_yllistDel hc hdel⟩
  cases d with
  | next => exact hnext hc
  | prev =>
      have hrev := hc.flip
      rw [List.reverse_append, List.reverse_cons, List.append_assoc, List.singleton_append] at hrev
      obtain ⟨m', hm', hc'⟩ := hnext hrev
      have hback := hc'.flip
      rw [List.reverse_append, List.reverse_reverse, List.reverse_reverse] at hback
      exact ⟨m', hm', hback⟩

theorem exists_run (hc : Circle m d h (ks ++ x :: xs)) (a : Act) :
    ∃ m', a.run m x = some m' ∧
      Circle m' d h (if a = .keep then ks ++ x :: xs else ks ++ xs) := by
  obtain ⟨m₁, h₁, hc₁⟩ := exists_yllistDel hc
  cases a with
  | keep => exact ⟨m, rfl, hc⟩
  | del => exact ⟨m₁, h₁, hc₁⟩
  | free =>
      refine ⟨Function.update m₁ x none, ?_, hc₁.frame fun y hy => ?_⟩
      · rw [Act.run, h₁]
        rfl
      · refine Function.update_of_ne ?_ _ _
        rintro rfl
        have hnd := hc.nodup
        rw [← List.cons_append, List.nodup_middle, List.nodup_cons] at hnd
        exact hnd.1 hy

/-- A round of the loop, in what has been kept so far and what is ahead. -/
theorem exists_round (act : List α → α → Act) (seen : List α) (hc : Circle m d h (ks ++ x :: xs)) :
    ∃ m' ks', (act seen x).run m x = some m' ∧ Circle m' d h (ks' ++ xs) ∧
      ks ++ kept act seen (x :: xs) = ks' ++ kept act (seen ++ [x]) xs := by
  obtain ⟨m', hm', hc'⟩ := exists_run hc (act seen x)
  rw [kept]
  by_cases hk : act seen x = .keep
  · rw [if_pos hk] at hc' ⊢
    exact ⟨m', ks ++ [x], hm', by simpa using hc', by simp⟩
  · rw [if_neg hk] at hc' ⊢
    exact ⟨m', ks, hm', hc', rfl⟩

theorem ends_removalSafe {todo t : List α} (act : List α → α → Act) (seen : List α)
    (hc : Circle m d h (ks ++ todo)) (hpos : todo ++ [h] = x :: t) (hn : m.get d x = some n) :
    ∃ m', Machine.Ends (removalSafeRound d h act) ⟨x, n, m, seen⟩ (some (seen ++ todo, m')) ∧
      Circle m' d h (ks ++ kept act seen todo) := by
  induction todo generalizing m x n ks t seen with
  | nil =>
      obtain ⟨rfl, -⟩ := List.cons.inj hpos
      refine ⟨m, .of_result ?_, hc⟩
      rw [removalSafeRound, if_neg fun hne => hne rfl, List.append_nil]
  | cons y xs ih =>
      obtain ⟨rfl, -⟩ := List.cons.inj hpos
      have hne : y ≠ h := by
        rintro rfl
        exact (List.nodup_cons.1 hc.nodup).1 (by simp)
      obtain ⟨w, s, v, -, hv, -, hs, -⟩ := hc.behind (u := h :: ks) (v := xs) rfl
      obtain rfl : n = s := Option.some.inj (hn.symm.trans hs.1)
      obtain ⟨m₁, ks', h₁, hc', hkept⟩ := exists_round act seen hc
      -- the node ahead is still on the circle
      have hahead : n ∈ xs ++ [h] := by
        rw [hv]
        exact List.mem_cons_self
      have hmem : n ∈ h :: (ks' ++ xs) := by
        rw [List.mem_append, List.mem_singleton] at hahead
        obtain hxs | rfl := hahead
        · simp [hxs]
        · exact List.mem_cons_self
      obtain ⟨a, b, hab⟩ := List.append_of_mem hmem
      obtain ⟨-, n', -, -, -, -, hn', -⟩ := hc'.behind hab
      obtain ⟨m', hends, hcircle⟩ := ih (seen ++ [y]) hc' hv hn'.1
      refine ⟨m', .of_step ?_ (by simpa using hends), hkept ▸ hcircle⟩
      rw [removalSafeRound, if_pos hne, h₁]
      dsimp only
      rw [hn'.1]

theorem iterates_dir (act : List α → α → Act) (hc : Circle m d h l) :
    ∃ m', removalSafe d m h act (m.get d h) (some (l, m')) ∧
      Circle m' d h (kept act [] l) := by
  obtain ⟨-, x, t, -, ht, -, hx, -⟩ := hc.behind (u := []) (v := l) rfl
  have hmem := hc.mem_of_get List.mem_cons_self hx.1
  obtain ⟨a, b, hab⟩ := List.append_of_mem hmem
  obtain ⟨-, n, -, -, -, -, hn, -⟩ := hc.behind hab
  rw [← List.nil_append l] at hc
  obtain ⟨m', hends, hcircle⟩ := ends_removalSafe act [] hc ht hn.1
  refine ⟨m', ?_, hcircle⟩
  rw [hx.1, removalSafe, hn.1]
  exact hends

theorem removalSafe_head (hc : Circle m d h l) {r : Option (List α × Mem α)} :
    removalSafe d m h act (some h) r ↔ r = some ([], m) := by
  obtain ⟨-, n, -, -, -, -, hn, -⟩ := hc.behind (u := []) (v := l) rfl
  have hround : removalSafeRound d h act ⟨h, n, m, []⟩ = .inr (some ([], m)) :=
    if_neg fun hne => hne rfl
  rw [removalSafe, hn.1]
  exact Machine.Ends.result_iff hround

def oneElement : Mem Bool := fun x => some ⟨!x, !x⟩

theorem built_oneElement : Built oneElement false [true] := by
  have hinit : Built (fun x => some ⟨x, x⟩ : Mem Bool) false [] := by
    refine .init (m := fun x => some ⟨x, x⟩) (congrArg some (funext fun x => ?_))
    cases x <;> rfl
  have hadd : yllistAddFirst (fun x => some ⟨x, x⟩) false true = some oneElement := by
    refine congrArg some (funext fun x => ?_)
    cases x <;> rfl
  exact hinit.addFirst (by decide) hadd

/-- **The macros that are safe for a removal.** Those over the items iterate over every list, and
those over the links over the empty list only: they visit nothing, and what the body should unlink
stays. -/
theorem iterates_iff (hb : Built m h l) (v : Foreach) (act : List α → α → Act) :
    Iterates v m h l act ↔ v = .item ∨ v = .itemBackward ∨ l = [] := by
  have hc := hb.circle
  cases v with
  | link =>
      constructor
      · rintro ⟨m', hrun, -⟩
        cases (removalSafe_head hc).1 hrun
        exact .inr (.inr rfl)
      · rintro (hv | hv | rfl)
        · cases hv
        · cases hv
        · exact ⟨m, (removalSafe_head hc).2 rfl, hc⟩
  | linkBackward =>
      constructor
      · rintro ⟨m', hrun, -⟩
        have heq := (removalSafe_head hc.flip).1 hrun
        have hl : l.reverse = [] := congrArg Prod.fst (Option.some.inj heq)
        exact .inr (.inr (List.reverse_eq_nil_iff.1 hl))
      · rintro (hv | hv | rfl)
        · cases hv
        · cases hv
        · exact ⟨m, (removalSafe_head hc.flip).2 rfl, hc⟩
  | item => exact ⟨fun _ => .inl rfl, fun _ => iterates_dir act hc⟩
  | itemBackward =>
      refine ⟨fun _ => .inr (.inl rfl), fun _ => ?_⟩
      obtain ⟨m', hrun, hcircle⟩ := iterates_dir act hc.flip
      exact ⟨m', hrun, hcircle.flip⟩

/-- The links of a list of three elements. -/
inductive Three where
  | head | a | b | c
  deriving DecidableEq

/-- Three elements are added; both loops visit them all, while one unlinks the element in the middle
and the other one the elements at the ends. -/
theorem iterates_iff_three : ∃ m, Built m Three.head [.a, .b, .c] ∧
    Iterates .item m .head [.a, .b, .c] (fun _ x => if x = .b then .free else .keep) ∧
      Iterates .itemBackward m .head [.a, .b, .c] (fun _ x => if x = .b then .keep else .del) := by
  have hinit : Built _ Three.head [] := .init (m := fun x => some ⟨x, x⟩) rfl
  have ha := hinit.addLast (x := .a) (by decide) rfl
  have hb := ha.addLast (x := .b) (by decide) rfl
  have hc := hb.addLast (x := .c) (by decide) rfl
  exact ⟨_, hc, (iterates_iff hc .item _).2 (.inl rfl),
    (iterates_iff hc .itemBackward _).2 (.inr (.inl rfl))⟩

/-- The loop of `_destroy_fnl` frees nothing. -/
theorem not_iterates_oneElement :
    ¬ ∀ (m : Mem Bool) (h : Bool) (l : List Bool) (v : Foreach) (act : List Bool → Bool → Act),
      Built m h l → Iterates v m h l act := by
  intro hall
  obtain ⟨m', hrun, -⟩ := hall _ _ _ .link (fun _ _ => .free) built_oneElement
  cases (removalSafe_head built_oneElement.circle).1 hrun

end Macros

end Lisp

end Ylisp
