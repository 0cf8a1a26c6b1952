import Mathlib.Data.List.Nodup
import Mathlib.Logic.Function.Basic

/-!
# Rings of doubly linked nodes

A memory holds the two links of each node; a node that is not there has none. `Circle m d h l`
says that the nodes of `l` are met in this order when the links in the direction `d` are
followed from the head `h`, until `h` is met again, and that the links in the other direction
lead back. Read backwards, a ring is a ring (`Circle.flip`), so that what is shown for one
direction holds for the other one.
-/

namespace Linked

variable {α : Type*}

inductive Dir where
  | next | prev
  deriving DecidableEq

def Dir.flip : Dir → Dir
  | .next => .prev
  | .prev => .next

structure Link (α : Type*) where
  next : α
  prev : α

def Link.get (k : Link α) : Dir → α
  | .next => k.next
  | .prev => k.prev

def Link.set (k : Link α) (y : α) : Dir → Link α
  | .next => { k with next := y }
  | .prev => { k with prev := y }

abbrev Mem (α : Type*) := α → Option (Link α)

def Mem.get (m : Mem α) (d : Dir) (x : α) : Option α := (m x).map fun k => k.get d

/-- The link of `x` in the direction `d` is assigned. -/
def Mem.set [DecidableEq α] (m : Mem α) (d : Dir) (x y : α) : Option (Mem α) :=
  (m x).map fun k => Function.update m x (some (k.set y d))

def Edge (m : Mem α) (d : Dir) (x y : α) : Prop := m.get d x = some y ∧ m.get d.flip y = some x

def Walk (m : Mem α) (d : Dir) : α → List α → α → Prop
  | a, [], b => a = b
  | a, x :: l, b => Edge m d a x ∧ Walk m d x l b

structure Circle (m : Mem α) (d : Dir) (h : α) (l : List α) : Prop where
  nodup : (h :: l).Nodup
  walk : Walk m d h (l ++ [h]) h

theorem Dir.flip_flip (d : Dir) : d.flip.flip = d := by
  cases d <;> rfl

theorem Edge.flip {m : Mem α} {d : Dir} {x y : α} (h : Edge m d x y) : Edge m d.flip y x :=
  ⟨h.2, by rw [Dir.flip_flip]; exact h.1⟩

section Walk

variable {m m' : Mem α} {d : Dir} {a b x y : α} {l l' : List α}

theorem walk_append : Walk m d a (l ++ l') b ↔ ∃ x, Walk m d a l x ∧ Walk m d x l' b := by
  induction l generalizing a with
  | nil =>
      constructor
      · exact fun h => ⟨a, rfl, h⟩
      · rintro ⟨x, rfl, h⟩
        exact h
  | cons y l ih =>
      rw [List.cons_append, Walk, ih]
      constructor
      · rintro ⟨he, x, h, h'⟩
        exact ⟨x, ⟨he, h⟩, h'⟩
      · rintro ⟨x, ⟨he, h⟩, h'⟩
        exact ⟨he, x, h, h'⟩

theorem Walk.mem (h : Walk m d a l b) : b ∈ a :: l := by
  induction l generalizing a with
  | nil =>
      obtain rfl : a = b := h
      exact List.mem_cons_self
  | cons x l ih => exact List.mem_cons_of_mem a (ih h.2)

theorem Walk.frame (h : Walk m d a l b)
    (hedge : ∀ y ∈ (a :: l).dropLast, ∀ z ∈ l, Edge m d y z → Edge m' d y z) :
    Walk m' d a l b := by
  induction l generalizing a with
  | nil => exact h
  | cons x l ih =>
      obtain ⟨he, hwalk⟩ := h
      rw [List.dropLast_cons_cons] at hedge
      refine ⟨hedge a List.mem_cons_self x List.mem_cons_self he, ih hwalk fun y hy z hz => ?_⟩
      exact hedge y (List.mem_cons_of_mem a hy) z (List.mem_cons_of_mem x hz)

theorem Walk.eq_last (h : Walk m d a l b) (hl : a :: l = l' ++ [x]) : b = x := by
  induction l generalizing a l' with
  | nil =>
      obtain rfl : a = b := h
      exact (List.append_singleton_inj.1 (show [] ++ [a] = l' ++ [x] from hl)).2
  | cons y l ih =>
      cases l' with
      | nil => cases hl
      | cons z l' => exact ih h.2 (List.cons.inj hl).2

theorem Walk.ne_of_mem_dropLast (h : Walk m d a l b) (hnd : (a :: l).Nodup)
    (hy : y ∈ (a :: l).dropLast) : y ≠ b := by
  induction l generalizing a with
  | nil => cases hy
  | cons x l ih =>
      obtain ⟨-, hwalk⟩ := h
      obtain ⟨hnot, hnd'⟩ := List.nodup_cons.1 hnd
      rw [List.dropLast_cons_cons, List.mem_cons] at hy
      obtain rfl | hy := hy
      · rintro rfl
        exact hnot hwalk.mem
      · exact ih hwalk hnd' hy

/-- A walk stays when the links onward of its nodes but the last one and the links back of those
behind the first one do. -/
theorem Walk.frame_of_ne (h : Walk m d a l b) (hnd : (a :: l).Nodup)
    (hto : ∀ y ∈ a :: l, y ≠ b → m'.get d y = m.get d y)
    (hback : ∀ z ∈ l, m'.get d.flip z = m.get d.flip z) : Walk m' d a l b :=
  h.frame fun y hy z hz he =>
    ⟨(hto y (List.dropLast_subset _ hy) (h.ne_of_mem_dropLast hnd hy)).trans he.1,
      (hback z hz).trans he.2⟩

theorem Walk.flip (h : Walk m d a l b) : ∃ l', b :: l' = (a :: l).reverse ∧
    Walk m d.flip b l' a := by
  induction l generalizing a with
  | nil =>
      obtain rfl : a = b := h
      exact ⟨[], rfl, rfl⟩
  | cons x l ih =>
      obtain ⟨he, hwalk⟩ := h
      obtain ⟨l', heq, hback⟩ := ih hwalk
      refine ⟨l' ++ [a], ?_, walk_append.2 ⟨x, hback, he.flip, rfl⟩⟩
      rw [List.reverse_cons, ← heq, List.cons_append]

/-- A walk through `x` comes from its neighbour and goes on to the other one. -/
theorem Walk.through (h : Walk m d a (l ++ x :: l') b) :
    ∃ p, Walk m d a l p ∧ Edge m d p x ∧ Walk m d x l' b := by
  obtain ⟨p, hp, hwalk⟩ := walk_append.1 h
  exact ⟨p, hp, hwalk⟩

end Walk

section Circle

variable {m m' : Mem α} {d : Dir} {h x y : α} {l l' : List α}

theorem Circle.flip (hr : Circle m d h l) : Circle m d.flip h l.reverse := by
  obtain ⟨l', heq, hback⟩ := hr.walk.flip
  rw [List.reverse_cons, List.reverse_append] at heq
  obtain ⟨-, rfl⟩ := List.cons.inj heq
  refine ⟨?_, hback⟩
  rw [List.nodup_cons, List.mem_reverse, List.nodup_reverse]
  exact List.nodup_cons.1 hr.nodup

theorem Circle.frame (hr : Circle m d h l) (hm : ∀ y ∈ h :: l, m' y = m y) : Circle m' d h l := by
  refine ⟨hr.nodup, hr.walk.frame fun y hy z hz he => ?_⟩
  rw [← List.cons_append, List.dropLast_concat] at hy
  rw [List.mem_append, List.mem_singleton, or_comm, ← List.mem_cons] at hz
  rw [Edge, Mem.get, Mem.get, hm y hy, hm z hz]
  exact he

theorem Circle.neighbours (hr : Circle m d h (l ++ x :: l')) :
    ∃ p s v, l' ++ [h] = s :: v ∧ Walk m d h l p ∧ Edge m d p x ∧ Edge m d x s ∧
      Walk m d s v h := by
  obtain ⟨s, v, hv⟩ : ∃ s v, l' ++ [h] = s :: v :=
    List.exists_cons_of_ne_nil (List.append_ne_nil_of_right_ne_nil l' (List.cons_ne_nil h []))
  have hwalk := hr.walk
  rw [List.append_assoc, List.cons_append, hv] at hwalk
  obtain ⟨p, hp, hpx, hxs, hs⟩ := hwalk.through
  exact ⟨p, s, v, hv, hp, hpx, hxs, hs⟩

/-- What comes behind a node of the circle, the head included. -/
theorem Circle.behind {k : α} {u v : List α} (hr : Circle m d h l) (hl : h :: l = u ++ k :: v) :
    ∃ w s v', h :: w = u ++ [k] ∧ v ++ [h] = s :: v' ∧ Walk m d h w k ∧ Edge m d k s ∧
      Walk m d s v' h := by
  obtain ⟨w, hw⟩ : ∃ w, h :: w = u ++ [k] := by
    cases u with
    | nil => exact ⟨[], by rw [(List.cons.inj hl).1]; rfl⟩
    | cons y u => exact ⟨u ++ [k], by rw [(List.cons.inj hl).1]; rfl⟩
  have hsplit : h :: l = h :: (w ++ v) := by
    rw [hl, ← List.cons_append, hw, List.append_assoc, List.singleton_append]
  obtain ⟨s, v', hv⟩ : ∃ s v', v ++ [h] = s :: v' :=
    List.exists_cons_of_ne_nil (List.append_ne_nil_of_right_ne_nil v (List.cons_ne_nil h []))
  have hwalk := hr.walk
  rw [(List.cons.inj hsplit).2, List.append_assoc, hv] at hwalk
  obtain ⟨p, hp, hps, hback⟩ := walk_append.1 hwalk
  obtain rfl : p = k := hp.eq_last hw
  exact ⟨w, s, v', hw, hv, hp, hps, hback⟩

/-- The links of a circle lead to nodes of it. -/
theorem Circle.mem_of_get {k s : α} (hr : Circle m d h l) (hk : k ∈ h :: l)
    (hs : m.get d k = some s) : s ∈ h :: l := by
  obtain ⟨u, v, hl⟩ := List.append_of_mem hk
  obtain ⟨w, s', v', hw, hv, -, hs', -⟩ := hr.behind hl
  obtain rfl : s = s' := Option.some.inj (hs.symm.trans hs'.1)
  have hmem : s ∈ v ++ [h] := by
    rw [hv]
    exact List.mem_cons_self
  rw [List.mem_append, List.mem_singleton] at hmem
  obtain hsv | rfl := hmem
  · rw [hl]
    simp [hsv]
  · exact List.mem_cons_self

theorem Circle.between {k : α} {v : List α} (hc : Circle m d h (l ++ k :: v)) :
    ∃ p s, Edge m d p k ∧ Edge m d k s ∧ p ∈ h :: (l ++ k :: v) ∧ s ∈ h :: (l ++ k :: v) ∧
      k ≠ s := by
  obtain ⟨p, s, w, hw, -, hp, hs, -⟩ := hc.neighbours
  have hk : k ∈ h :: (l ++ k :: v) := by simp
  have hpk : m.get d.flip k = some p := hp.2
  have hpm : p ∈ h :: (l ++ k :: v).reverse := hc.flip.mem_of_get (by simp) hpk
  rw [List.mem_cons, List.mem_reverse, ← List.mem_cons] at hpm
  refine ⟨p, s, hp, hs, hpm, hc.mem_of_get hk hs.1, ?_⟩
  rintro rfl
  have hkv : k ∈ v ++ [h] := by
    rw [hw]
    exact List.mem_cons_self
  obtain ⟨hh, hnd⟩ := List.nodup_cons.1 hc.nodup
  rw [List.mem_append, List.mem_singleton] at hkv
  obtain hkv | rfl := hkv
  · exact (List.nodup_cons.1 (List.nodup_append.1 hnd).2.1).1 hkv
  · exact hh (by simp)

/-- Where links have been assigned between the nodes `p` and `s` only, a circle is one again when
`p` leads to `s` on a walk over the nodes of `mid`. -/
theorem Circle.of_parts {p s : α} {mid v : List α} (hnd : (h :: (l ++ mid ++ l')).Nodup)
    (hv : l' ++ [h] = s :: v) (hp : Walk m d h l p) (hmid : Walk m' d p (mid ++ [s]) s)
    (hs : Walk m d s v h)
    (hto : ∀ y ∈ h :: (l ++ l'), y ≠ p → m'.get d y = m.get d y)
    (hback : ∀ z ∈ h :: (l ++ l'), z ≠ s → m'.get d.flip z = m.get d.flip z) :
    Circle m' d h (l ++ mid ++ l') := by
  have hnd' : (h :: (l ++ l')).Nodup :=
    hnd.sublist ((List.Sublist.append (List.sublist_append_left l mid) (.refl l')).cons_cons h)
  have hleft : (h :: l).Nodup := hnd'.sublist ((List.sublist_append_left l l').cons_cons h)
  have hright : (s :: v).Nodup := by
    rw [← hv]
    exact (List.perm_append_singleton h l').nodup_iff.2
      (hnd'.sublist ((List.sublist_append_right l l').cons_cons h))
  have hmem : ∀ {z : α}, z ∈ s :: v ↔ z = h ∨ z ∈ l' := by
    intro z
    rw [← hv, List.mem_append, List.mem_singleton, or_comm]
  have hdisj : ∀ z ∈ l, z ∉ s :: v := by
    intro z hz hz'
    obtain rfl | hzl := hmem.1 hz'
    · exact (List.nodup_cons.1 hleft).1 hz
    · exact (List.nodup_append.1 (List.nodup_cons.1 hnd').2).2.2 z hz z hzl rfl
  have hlist : l ++ mid ++ l' ++ [h] = l ++ ((mid ++ [s]) ++ v) := by
    simp [hv]
  refine ⟨hnd, ?_⟩
  rw [hlist]
  refine walk_append.2 ⟨p, hp.frame_of_ne hleft (fun y hy => hto y ?_) fun z hz => hback z ?_ ?_,
    walk_append.2 ⟨s, hmid, hs.frame_of_ne hright (fun y hy hyh => hto y ?_ ?_)
      fun z hz => hback z ?_ ?_⟩⟩
  · exact List.cons_subset_cons h (List.subset_append_left l l') hy
  · exact List.mem_cons_of_mem h (List.mem_append_left l' hz)
  · rintro rfl
    exact hdisj z hz List.mem_cons_self
  · exact List.mem_cons_of_mem h (List.mem_append_right l ((hmem.1 hy).resolve_left hyh))
  · rintro rfl
    exact hdisj y ((List.mem_cons.1 hp.mem).resolve_left hyh) hy
  · obtain rfl | hzl := hmem.1 (List.mem_cons_of_mem s hz)
    · exact List.mem_cons_self
    · exact List.mem_cons_of_mem h (List.mem_append_right l hzl)
  · rintro rfl
    exact (List.nodup_cons.1 hright).1 hz

end Circle

section Change

variable {m m' : Mem α} {d : Dir} {h k p s x : α} {l l' u v : List α}

structure Joined (m m' : Mem α) (d : Dir) (p s : α) : Prop where
  edge : Edge m' d p s
  onward : ∀ y, y ≠ p → m'.get d y = m.get d y
  back : ∀ z, z ≠ s → m'.get d.flip z = m.get d.flip z

structure Inserted (m m' : Mem α) (d : Dir) (p s x : α) : Prop where
  before : Edge m' d p x
  behind : Edge m' d x s
  onward : ∀ y, y ≠ p → y ≠ x → m'.get d y = m.get d y
  back : ∀ z, z ≠ s → z ≠ x → m'.get d.flip z = m.get d.flip z

theorem Inserted.flip (hi : Inserted m m' d p s x) : Inserted m m' d.flip s p x where
  before := hi.behind.flip
  behind := hi.before.flip
  onward := hi.back
  back := by
    rw [Dir.flip_flip]
    exact hi.onward

theorem Circle.unlink (hr : Circle m d h (l ++ k :: l')) (hp : Edge m d p k) (hs : Edge m d k s)
    (hj : Joined m m' d p s) : Circle m' d h (l ++ l') := by
  obtain ⟨p', s', v, hv, hwalk, hp', hs', hwalk'⟩ := hr.neighbours
  obtain rfl : p = p' := Option.some.inj (hp.2.symm.trans hp'.2)
  obtain rfl : s = s' := Option.some.inj (hs.1.symm.trans hs'.1)
  have hnd : (h :: (l ++ [] ++ l')).Nodup := by
    rw [List.append_nil]
    exact hr.nodup.sublist (((List.sublist_cons_self k l').append_left l).cons_cons h)
  have hcircle := Circle.of_parts hnd hv hwalk ⟨hj.edge, rfl⟩ hwalk' (fun y _ => hj.onward y)
    fun z _ => hj.back z
  rwa [List.append_nil] at hcircle

theorem Circle.of_inserted (hnd : (h :: (l ++ l')).Nodup) (hx : x ∉ h :: (l ++ l'))
    (hv : l' ++ [h] = s :: v) (hp : Walk m d h l p) (hs : Walk m d s v h)
    (hi : Inserted m m' d p s x) : Circle m' d h (l ++ x :: l') := by
  have hne : ∀ y ∈ h :: (l ++ l'), y ≠ x := by
    rintro y hy rfl
    exact hx hy
  have hperm : (h :: (l ++ [x] ++ l')).Perm (x :: h :: (l ++ l')) := by
    rw [List.append_assoc, List.singleton_append]
    exact (List.perm_middle.cons h).trans (.swap x h _)
  have hcircle := Circle.of_parts (hperm.nodup_iff.2 (List.nodup_cons.2 ⟨hx, hnd⟩)) hv hp
    ⟨hi.before, hi.behind, rfl⟩ hs (fun y hy hyp => hi.onward y hyp (hne y hy))
    fun z hz hzs => hi.back z hzs (hne z hz)
  rwa [List.append_assoc] at hcircle

theorem Circle.replace (hr : Circle m d h (l ++ k :: l')) (hx : x ∉ h :: (l ++ k :: l'))
    (hp : Edge m d p k) (hs : Edge m d k s) (hi : Inserted m m' d p s x) :
    Circle m' d h (l ++ x :: l') := by
  obtain ⟨p', s', v, hv, hwalk, hp', hs', hwalk'⟩ := hr.neighbours
  obtain rfl : p = p' := Option.some.inj (hp.2.symm.trans hp'.2)
  obtain rfl : s = s' := Option.some.inj (hs.1.symm.trans hs'.1)
  have hsub : (h :: (l ++ l')).Sublist (h :: (l ++ k :: l')) :=
    ((List.sublist_cons_self k l').append_left l).cons_cons h
  exact Circle.of_inserted (hr.nodup.sublist hsub) (fun hmem => hx (hsub.subset hmem)) hv hwalk
    hwalk' hi

theorem Circle.insert (hr : Circle m d h l) (hx : x ∉ h :: l) (hl : h :: l = u ++ k :: v)
    (hl' : h :: l' = u ++ k :: x :: v) (hs : m.get d k = some s)
    (hi : Inserted m m' d k s x) : Circle m' d h l' := by
  obtain ⟨w, s', v', hw, hv, hp, hs', hback⟩ := hr.behind hl
  obtain rfl : s = s' := Option.some.inj (hs.symm.trans hs'.1)
  have hsplit : ∀ t : List α, u ++ k :: t = h :: (w ++ t) := fun t => by
    rw [← List.cons_append, hw, List.append_assoc, List.singleton_append]
  rw [hsplit] at hl hl'
  obtain ⟨-, rfl⟩ := List.cons.inj hl
  obtain ⟨-, rfl⟩ := List.cons.inj hl'
  exact Circle.of_inserted hr.nodup hx hv hp hback hi

end Change

section Set

variable [DecidableEq α] {m m' : Mem α} {d : Dir} {x y z : α}

/-- The link of `x` in the direction `d` is the only one that has been assigned. -/
structure Sets (m m' : Mem α) (d : Dir) (x y : α) : Prop where
  self : m'.get d x = some y
  other : ∀ d' z, (d' = d → z ≠ x) → m'.get d' z = m.get d' z
  node : ∀ z ≠ x, m' z = m z

theorem sets_of_set (hm : m.set d x y = some m') : Sets m m' d x y := by
  obtain ⟨k, hk, rfl⟩ := Option.map_eq_some_iff.1 hm
  refine ⟨?_, fun d' z hz => ?_, fun z hz => Function.update_of_ne hz _ _⟩
  · rw [Mem.get, Function.update_self]
    cases d <;> rfl
  · by_cases hzx : z = x
    · subst hzx
      have hd : d' ≠ d := fun hd => hz hd rfl
      rw [Mem.get, Mem.get, Function.update_self, hk]
      cases d <;> cases d' <;> first | rfl | exact absurd rfl hd
    · rw [Mem.get, Mem.get, Function.update_of_ne hzx]

/-- A link of a node that is there can be assigned. -/
theorem exists_set {d' : Dir} (hx : m.get d' x = some z) (d : Dir) (y : α) :
    ∃ m', m.set d x y = some m' := by
  obtain ⟨k, hk, -⟩ := Option.map_eq_some_iff.1 hx
  exact ⟨_, by rw [Mem.set, hk]; rfl⟩

end Set

end Linked
