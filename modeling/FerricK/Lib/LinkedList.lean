import Mathlib.Data.List.Basic
import Mathlib.Logic.Function.Basic
import Mathlib.Tactic.Common

/-! Intrusive doubly linked lists, with `0` for the null link. -/

namespace LinkedList

structure Links (A : Type*) where
  head : A
  next : A → A
  prev : A → A

variable {A : Type*} {d d' : Links A} {l r : List A} {a p n : A}

/-- The chain `l`, entered from `p` and left for `n`. -/
def Seg (d : Links A) : A → List A → A → Prop
  | _, [], _ => True
  | p, a :: l, n => d.prev a = p ∧ d.next a = l.headD n ∧ Seg d a l n

theorem seg_append : Seg d p (l ++ r) n ↔ Seg d p l (r.headD n) ∧ Seg d (l.getLastD p) r n := by
  induction l generalizing p with
  | nil => simp [Seg]
  | cons a l ih =>
    simp only [List.cons_append, Seg, ih, List.getLastD_cons]
    cases l <;> simp [and_assoc]

theorem Seg.congr (h : Seg d p l n) (hnext : ∀ a ∈ l, d'.next a = d.next a)
    (hprev : ∀ a ∈ l, d'.prev a = d.prev a) : Seg d' p l n := by
  induction l generalizing p with
  | nil => trivial
  | cons a l ih =>
    obtain ⟨h₁, h₂, h₃⟩ := h
    refine ⟨(hprev a (by simp)).trans h₁, (hnext a (by simp)).trans h₂, ih h₃ ?_ ?_⟩
    · exact fun b hb => hnext b (by simp [hb])
    · exact fun b hb => hprev b (by simp [hb])

/-- The front of a list: from the head through `l`, and then on to `n`. -/
structure Front [Zero A] (d : Links A) (l : List A) (n : A) : Prop where
  head : d.head = l.headD n
  seg : Seg d 0 l n

structure IsList [Zero A] (d : Links A) (l : List A) : Prop where
  front : Front d l 0
  nonnull : 0 ∉ l
  nodup : l.Nodup

section Zero

variable [Zero A]

theorem front_append : Front d (l ++ r) n ↔
    Front d l (r.headD n) ∧ Seg d (l.getLastD 0) r n := by
  constructor
  · rintro ⟨hhead, hseg⟩
    rw [seg_append] at hseg
    refine ⟨⟨?_, hseg.1⟩, hseg.2⟩
    cases l <;> simpa using hhead
  · rintro ⟨⟨hhead, hseg⟩, hr⟩
    refine ⟨?_, seg_append.mpr ⟨hseg, hr⟩⟩
    cases l <;> simpa using hhead

theorem Front.congr (h : Front d l n) (hhead : d'.head = d.head)
    (hnext : ∀ a ∈ l, d'.next a = d.next a) (hprev : ∀ a ∈ l, d'.prev a = d.prev a) :
    Front d' l n := ⟨hhead.trans h.head, h.seg.congr hnext hprev⟩

theorem IsList.congr (h : IsList d l) (hhead : d'.head = d.head)
    (hnext : ∀ a ∈ l, d'.next a = d.next a) (hprev : ∀ a ∈ l, d'.prev a = d.prev a) :
    IsList d' l := ⟨h.front.congr hhead hnext hprev, h.nonnull, h.nodup⟩

theorem IsList.links (h : IsList d (l ++ a :: r)) :
    d.prev a = l.getLastD 0 ∧ d.next a = r.headD 0 := by
  obtain ⟨-, hseg⟩ := front_append.mp h.front
  exact ⟨hseg.1, hseg.2.1⟩

theorem IsList.sides (h : IsList d (l ++ a :: r)) :
    Front d l a ∧ Seg d a r 0 ∧ 0 ∉ l ++ r ∧ (l ++ r).Nodup := by
  obtain ⟨hl, -, -, hr⟩ := front_append.mp h.front
  have hsub : (l ++ r).Sublist (l ++ a :: r) := by simp
  exact ⟨hl, hr, fun hmem => h.nonnull (hsub.subset hmem), h.nodup.sublist hsub⟩

theorem IsList.prev_head (h : IsList d l) (hhead : d.head ≠ 0) : d.prev d.head = 0 := by
  rw [h.front.head] at hhead ⊢
  cases l with
  | nil => exact absurd rfl hhead
  | cons a l => exact h.front.seg.1

theorem IsList.prev_next (h : IsList d l) (ha : a ∈ l) (hnext : d.next a ≠ 0) :
    d.prev (d.next a) = a := by
  obtain ⟨l, r, rfl⟩ := List.mem_iff_append.mp ha
  rw [h.links.2] at hnext ⊢
  cases r with
  | nil => exact absurd rfl hnext
  | cons b r =>
    have hb : IsList d ((l ++ [a]) ++ b :: r) := by simpa using h
    simpa using hb.links.1

theorem Seg.unique (h : Seg d p l 0) (h' : Seg d p' l' 0) (hhead : l.headD 0 = l'.headD 0)
    (hl : 0 ∉ l) (hl' : 0 ∉ l') : l = l' := by
  induction l generalizing p p' l' with
  | nil =>
    cases l' with
    | nil => rfl
    | cons b l' => simp_all
  | cons a l ih =>
    cases l' with
    | nil => simp_all
    | cons b l' =>
      obtain rfl : a = b := hhead
      simp only [List.mem_cons, not_or] at hl hl'
      rw [ih h.2.2 h'.2.2 (h.2.1.symm.trans h'.2.1) hl.2 hl'.2]

/-- The links are the list of at most one sequence of nodes. -/
theorem IsList.unique (h : IsList d l) (h' : IsList d l') : l = l' :=
  h.front.seg.unique h'.front.seg (h.front.head.symm.trans h'.front.head) h.nonnull h'.nonnull

theorem getLastD_mem_or (l : List A) : l.getLastD 0 = 0 ∨ l.getLastD 0 ∈ l := by
  rcases List.eq_nil_or_concat' l with rfl | ⟨l, x, rfl⟩ <;> simp

theorem headD_mem_or (l : List A) : l.headD 0 = 0 ∨ l.headD 0 ∈ l := by
  cases l <;> simp

variable [DecidableEq A]

def Links.setNext (d : Links A) (p n : A) : Links A :=
  if p = 0 then { d with head := n } else { d with next := Function.update d.next p n }

def Links.setPrev (d : Links A) (n p : A) : Links A :=
  if n = 0 then d else { d with prev := Function.update d.prev n p }

def Links.setNode (d : Links A) (a n p : A) : Links A :=
  { d with next := Function.update d.next a n, prev := Function.update d.prev a p }

def Links.unlink (d : Links A) (a : A) : Links A :=
  (d.setNext (d.prev a) (d.next a)).setPrev (d.next a) (d.prev a)

def Links.replace (d : Links A) (a t : A) : Links A :=
  ((d.setNode t (d.next a) (d.prev a)).setNext (d.prev a) t).setPrev (d.next a) t

def Links.pushFront (d : Links A) (a : A) : Links A :=
  { (d.setNode a d.head 0).setPrev d.head a with head := a }

@[simp] theorem setNext_prev (d : Links A) (p n : A) : (d.setNext p n).prev = d.prev := by
  unfold Links.setNext; split <;> rfl

@[simp] theorem setPrev_next (d : Links A) (n p : A) : (d.setPrev n p).next = d.next := by
  unfold Links.setPrev; split <;> rfl

@[simp] theorem setPrev_head (d : Links A) (n p : A) : (d.setPrev n p).head = d.head := by
  unfold Links.setPrev; split <;> rfl

theorem setNext_next_of_ne (h : a ≠ p) : (d.setNext p n).next a = d.next a := by
  unfold Links.setNext; split <;> simp [h]

theorem setPrev_prev_of_ne (h : a ≠ n) : (d.setPrev n p).prev a = d.prev a := by
  unfold Links.setPrev; split <;> simp [h]

theorem Front.setNext (h : Front d l n) (hnonnull : 0 ∉ l) (hnodup : l.Nodup) (n' : A) :
    Front (d.setNext (l.getLastD 0) n') l n' := by
  rcases List.eq_nil_or_concat' l with rfl | ⟨l, x, rfl⟩
  · exact ⟨by simp [Links.setNext], trivial⟩
  · have hx : x ≠ 0 := by
      rintro rfl
      simp at hnonnull
    have hxl : x ∉ l := by
      rw [List.nodup_append] at hnodup
      intro hmem
      exact hnodup.2.2 x hmem x (by simp) rfl
    obtain ⟨hfront, hprev, -, -⟩ := front_append.mp h
    rw [List.getLastD_concat]
    have hl : Front (d.setNext x n') l x := by
      refine hfront.congr ?_ ?_ ?_
      · simp [Links.setNext, hx]
      · intro a ha
        exact setNext_next_of_ne (ne_of_mem_of_not_mem ha hxl)
      · simp
    refine front_append.mpr ⟨hl, ?_, ?_, trivial⟩
    · simpa using hprev
    · simp [Links.setNext, hx]

theorem Front.setPrev (h : Front d l n) (hx : a ∉ l) (p : A) : Front (d.setPrev a p) l n :=
  h.congr (by simp) (by simp) fun _ hb => setPrev_prev_of_ne (ne_of_mem_of_not_mem hb hx)

theorem Seg.setNext (h : Seg d p l n) (hx : a ∉ l) (n' : A) : Seg (d.setNext a n') p l n :=
  h.congr (fun _ hb => setNext_next_of_ne (ne_of_mem_of_not_mem hb hx)) (by simp)

theorem Seg.setPrev (h : Seg d p l n) (hnonnull : 0 ∉ l) (hnodup : l.Nodup) (p' : A) :
    Seg (d.setPrev (l.headD 0) p') p' l n := by
  cases l with
  | nil => trivial
  | cons x l =>
    obtain ⟨-, hnext, hseg⟩ := h
    have hx : x ≠ 0 := by
      rintro rfl
      simp at hnonnull
    refine ⟨by simp [Links.setPrev, hx], by simpa using hnext, hseg.congr (by simp) ?_⟩
    intro a ha
    exact setPrev_prev_of_ne (ne_of_mem_of_not_mem ha (List.nodup_cons.mp hnodup).1)

theorem relink (hl : Front d l n) (hr : Seg d p r 0) (hnonnull : 0 ∉ l ++ r)
    (hnodup : (l ++ r).Nodup) (n' p' : A) :
    Front ((d.setNext (l.getLastD 0) n').setPrev (r.headD 0) p') l n' ∧
      Seg ((d.setNext (l.getLastD 0) n').setPrev (r.headD 0) p') p' r 0 := by
  simp only [List.mem_append, not_or] at hnonnull
  obtain ⟨hnl, hnr, hdisj⟩ := List.nodup_append.mp hnodup
  constructor
  · refine (hl.setNext hnonnull.1 hnl n').setPrev ?_ p'
    rcases headD_mem_or r with h | h
    · rw [h]
      exact hnonnull.1
    · exact fun hmem => hdisj _ hmem _ h rfl
  · refine (hr.setNext ?_ n').setPrev hnonnull.2 hnr p'
    rcases getLastD_mem_or l with h | h
    · rw [h]
      exact hnonnull.2
    · exact fun hmem => hdisj _ h _ hmem rfl

theorem IsList.unlink (h : IsList d (l ++ a :: r)) : IsList (d.unlink a) (l ++ r) := by
  obtain ⟨hprev, hnext⟩ := h.links
  obtain ⟨hl, hr, hnonnull, hnodup⟩ := h.sides
  have hlr := relink hl hr hnonnull hnodup (r.headD 0) (l.getLastD 0)
  rw [Links.unlink, hprev, hnext]
  exact ⟨front_append.mpr hlr, hnonnull, hnodup⟩

theorem setNode_front (h : Front d l n) (ha : a ∉ l) (x y : A) : Front (d.setNode a x y) l n :=
  h.congr rfl (fun _ hb => Function.update_of_ne (ne_of_mem_of_not_mem hb ha) _ _)
    fun _ hb => Function.update_of_ne (ne_of_mem_of_not_mem hb ha) _ _

omit [Zero A] in
theorem setNode_seg (h : Seg d p l n) (ha : a ∉ l) (x y : A) : Seg (d.setNode a x y) p l n :=
  h.congr (fun _ hb => Function.update_of_ne (ne_of_mem_of_not_mem hb ha) _ _)
    fun _ hb => Function.update_of_ne (ne_of_mem_of_not_mem hb ha) _ _

theorem IsList.replace (h : IsList d (l ++ a :: r)) (ht₀ : t ≠ 0) (ht : t ∉ l ++ r) :
    IsList (d.replace a t) (l ++ t :: r) := by
  obtain ⟨hprev, hnext⟩ := h.links
  obtain ⟨hl, hr, hnonnull, hnodup⟩ := h.sides
  have htl : t ∉ l := fun hmem => ht (by simp [hmem])
  have htr : t ∉ r := fun hmem => ht (by simp [hmem])
  have hlr := relink (setNode_front hl htl (d.next a) (d.prev a))
    (setNode_seg hr htr (d.next a) (d.prev a)) hnonnull hnodup t t
  refine ⟨?_, ?_, ?_⟩
  · rw [Links.replace, hprev, hnext] at *
    refine front_append.mpr ⟨hlr.1, ?_, ?_, hlr.2⟩
    · rw [setPrev_prev_of_ne, setNext_prev]
      · simp [Links.setNode]
      · rcases headD_mem_or r with h₀ | hmem
        · rwa [h₀]
        · exact fun heq => htr (heq ▸ hmem)
    · rw [setPrev_next, setNext_next_of_ne]
      · simp [Links.setNode]
      · rcases getLastD_mem_or l with h₀ | hmem
        · rwa [h₀]
        · exact fun heq => htl (heq ▸ hmem)
  · simp only [List.mem_append, List.mem_cons, not_or] at hnonnull ⊢
    exact ⟨hnonnull.1, Ne.symm ht₀, hnonnull.2⟩
  · exact List.perm_middle.nodup_iff.mpr (List.nodup_cons.mpr ⟨ht, hnodup⟩)

theorem IsList.pushFront (h : IsList d l) (ha₀ : a ≠ 0) (ha : a ∉ l) :
    IsList (d.pushFront a) (a :: l) := by
  have hne : a ≠ d.head := by
    rw [h.front.head]
    rcases headD_mem_or l with h₀ | hmem
    · rwa [h₀]
    · exact fun heq => ha (heq ▸ hmem)
  have hseg := (setNode_seg h.front.seg ha d.head 0).setPrev h.nonnull h.nodup a
  rw [← h.front.head] at hseg
  refine ⟨⟨rfl, ?_, ?_, hseg.congr (fun _ _ => rfl) fun _ _ => rfl⟩, ?_, ?_⟩
  · exact (setPrev_prev_of_ne hne).trans (by simp [Links.setNode])
  · simpa [Links.pushFront, Links.setNode] using h.front.head
  · simpa [h.nonnull] using Ne.symm ha₀
  · exact List.nodup_cons.mpr ⟨ha, h.nodup⟩

end Zero

end LinkedList
