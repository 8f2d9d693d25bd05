import FerricK.Heap.Defs
import FerricK.Lib.LinkedList

/-! Header accesses in memory simulate the list operations on the links they encode. -/

namespace FerricK.Heap

open Rust LinkedList

structure Separated (N : List Nat) : Prop where
  node : ∀ a ∈ N, a ≠ 0 ∧ a % 8 = 0
  apart : ∀ a ∈ N, ∀ b ∈ N, a ≠ b → a + headerSize ≤ b ∨ b + headerSize ≤ a

theorem Separated.mono {M N : List Nat} (h : Separated N) (hsub : M ⊆ N) : Separated M :=
  ⟨fun a ha => h.node a (hsub ha), fun a ha b hb => h.apart a (hsub ha) b (hsub hb)⟩

theorem Separated.cons {N : List Nat} {t : Nat} (h : Separated N) (hnode : t ≠ 0 ∧ t % 8 = 0)
    (hapart : ∀ a ∈ N, t + headerSize ≤ a ∨ a + headerSize ≤ t) : Separated (t :: N) where
  node := List.forall_mem_cons.mpr ⟨hnode, h.node⟩
  apart a ha b hb hne := by
    rw [List.mem_cons] at ha hb
    rcases ha with rfl | ha <;> rcases hb with rfl | hb
    · exact absurd rfl hne
    · exact hapart b hb
    · exact (hapart a ha).symm
    · exact h.apart a ha b hb hne

def State.field (s : State) (f : Field) (a : Nat) : Nat := Bytes.loadWord s.mem (a + f.offset)

def State.links (s : State) : Links Nat := ⟨s.free, s.field .next, s.field .prev⟩

structure Holds (N : List Nat) (s : State) (d : Links Nat) (z : Nat → Nat) : Prop where
  head : s.free = d.head
  next : ∀ a ∈ N, s.field .next a = d.next a
  prev : ∀ a ∈ N, s.field .prev a = d.prev a
  size : ∀ a ∈ N, s.field .size a = z a

/-- Only the headers at `N` and the free head may differ. -/
structure Frame (N : List Nat) (s s' : State) : Prop where
  start : s'.start = s.start
  «end» : s'.end = s.end
  mem : ∀ x, (∀ a ∈ N, ¬(a ≤ x ∧ x < a + headerSize)) → s'.mem x = s.mem x

variable {N : List Nat} {s s' s'' : State} {d : Links Nat} {z : Nat → Nat} {a b p n v : Nat}

theorem Holds.self (N : List Nat) (s : State) : Holds N s s.links (s.field .size) :=
  ⟨rfl, fun _ _ => rfl, fun _ _ => rfl, fun _ _ => rfl⟩

theorem Holds.isList (h : Holds N s d z) (hl : IsList d l) (hN : ∀ a ∈ l, a ∈ N) :
    IsList s.links l :=
  hl.congr h.head (fun a ha => h.next a (hN a ha)) fun a ha => h.prev a (hN a ha)

theorem Frame.refl (N : List Nat) (s : State) : Frame N s s := ⟨rfl, rfl, fun _ _ => rfl⟩

theorem Frame.trans (h : Frame N s s') (h' : Frame N s' s'') : Frame N s s'' :=
  ⟨h'.start.trans h.start, h'.end.trans h.end, fun x hx => (h'.mem x hx).trans (h.mem x hx)⟩

theorem State.field_lt (s : State) (f : Field) (a : Nat) : s.field f a < 2 ^ 64 :=
  Bytes.loadWord_lt _ _

theorem Field.offset_lt (f : Field) : f.offset + 8 ≤ headerSize := by cases f <;> decide

theorem Field.offset_mod (f : Field) : f.offset % 8 = 0 := by cases f <;> rfl

theorem Field.offset_inj {f g : Field} (h : f.offset = g.offset) : f = g := by
  cases f <;> cases g <;> simp_all [Field.offset]

theorem deref_of_node (h : a ≠ 0 ∧ a % 8 = 0) : deref a = .ok () := by simp [deref, h]

theorem get_of_node (h : a ≠ 0 ∧ a % 8 = 0) (f : Field) : get s.mem a f = .ok (s.field f a) := by
  simp [get, deref_of_node h, State.field]

theorem set_of_node (h : a ≠ 0 ∧ a % 8 = 0) (m : Mem) (f : Field) (v : Nat) :
    set m a f v = .ok (Bytes.storeWord m (a + f.offset) v) := by
  simp [set, deref_of_node h]

def State.put (s : State) (a : Nat) (f : Field) (v : Nat) : State :=
  { s with mem := Bytes.storeWord s.mem (a + f.offset) v }

theorem field_put (hN : Separated N) (ha : a ∈ N) (hb : b ∈ N) (hv : v < 2 ^ 64) (f g : Field) :
    (s.put a f v).field g b = if b = a ∧ g = f then v else s.field g b := by
  have hna := hN.node a ha
  have hnb := hN.node b hb
  have hf := f.offset_mod
  have hg := g.offset_mod
  rw [State.field, State.put, Bytes.loadWord_storeWord_aligned (by omega) (by omega) hv]
  have hiff : b + g.offset = a + f.offset ↔ b = a ∧ g = f := by
    constructor
    · intro h
      have := f.offset_lt
      have := g.offset_lt
      rcases eq_or_ne b a with rfl | hne
      · exact ⟨rfl, Field.offset_inj (by omega)⟩
      · have := hN.apart b hb a ha hne
        omega
    · rintro ⟨rfl, rfl⟩
      rfl
  simp only [hiff, State.field]

theorem frame_put (ha : a ∈ N) (f : Field) (v : Nat) : Frame N s (s.put a f v) where
  start := rfl
  «end» := rfl
  mem x hx := by
    apply Bytes.storeWord_of_not_mem
    rw [Bytes.mem_span_nat]
    have := f.offset_lt
    have := hx a ha
    omega

theorem Holds.put_next (h : Holds N s d z) (hN : Separated N) (ha : a ∈ N) (hv : v < 2 ^ 64) :
    Holds N (s.put a .next v) { d with next := Function.update d.next a v } z where
  head := h.head
  next b hb := by simp [field_put hN ha hb hv, Function.update_apply, h.next b hb]
  prev b hb := by rw [field_put hN ha hb hv, h.prev b hb]; simp
  size b hb := by rw [field_put hN ha hb hv, h.size b hb]; simp

theorem Holds.put_prev (h : Holds N s d z) (hN : Separated N) (ha : a ∈ N) (hv : v < 2 ^ 64) :
    Holds N (s.put a .prev v) { d with prev := Function.update d.prev a v } z where
  head := h.head
  next b hb := by rw [field_put hN ha hb hv, h.next b hb]; simp
  prev b hb := by simp [field_put hN ha hb hv, Function.update_apply, h.prev b hb]
  size b hb := by rw [field_put hN ha hb hv, h.size b hb]; simp

theorem Holds.put_size (h : Holds N s d z) (hN : Separated N) (ha : a ∈ N) (hv : v < 2 ^ 64) :
    Holds N (s.put a .size v) d (Function.update z a v) where
  head := h.head
  next b hb := by rw [field_put hN ha hb hv, h.next b hb]; simp
  prev b hb := by rw [field_put hN ha hb hv, h.prev b hb]; simp
  size b hb := by simp [field_put hN ha hb hv, Function.update_apply, h.size b hb]

theorem setNext_spec (h : Holds N s d z) (hN : Separated N) (hp : p = 0 ∨ p ∈ N)
    (hn : n < 2 ^ 64) :
    ∃ s', setNext s p n = .ok s' ∧ Holds N s' (d.setNext p n) z ∧ Frame N s s' := by
  rcases eq_or_ne p 0 with rfl | hp₀
  · refine ⟨{ s with free := n }, by simp [setNext], ?_, ⟨rfl, rfl, fun _ _ => rfl⟩⟩
    rw [Links.setNext, if_pos rfl]
    exact ⟨rfl, h.next, h.prev, h.size⟩
  · have hmem := hp.resolve_left hp₀
    refine ⟨s.put p .next n, ?_, ?_, frame_put hmem _ _⟩
    · simp [setNext, hp₀, set_of_node (hN.node p hmem), State.put]
    · simpa [Links.setNext, hp₀] using h.put_next hN hmem hn

theorem setPrev_spec (h : Holds N s d z) (hN : Separated N) (hn : n = 0 ∨ n ∈ N)
    (hp : p < 2 ^ 64) :
    ∃ s', setPrev s n p = .ok s' ∧ Holds N s' (d.setPrev n p) z ∧ Frame N s s' := by
  rcases eq_or_ne n 0 with rfl | hn₀
  · exact ⟨s, by simp [setPrev], by simpa [Links.setPrev] using h, Frame.refl N s⟩
  · have hmem := hn.resolve_left hn₀
    refine ⟨s.put n .prev p, ?_, ?_, frame_put hmem _ _⟩
    · simp [setPrev, hn₀, set_of_node (hN.node n hmem), State.put]
    · simpa [Links.setPrev, hn₀] using h.put_prev hN hmem hp

theorem Holds.get_next (h : Holds N s d z) (hN : Separated N) (ha : a ∈ N) :
    get s.mem a .next = .ok (d.next a) := by
  rw [get_of_node (hN.node a ha), h.next a ha]

theorem Holds.get_prev (h : Holds N s d z) (hN : Separated N) (ha : a ∈ N) :
    get s.mem a .prev = .ok (d.prev a) := by
  rw [get_of_node (hN.node a ha), h.prev a ha]

theorem Holds.get_size (h : Holds N s d z) (hN : Separated N) (ha : a ∈ N) :
    get s.mem a .size = .ok (z a) := by
  rw [get_of_node (hN.node a ha), h.size a ha]

theorem Holds.next_lt (h : Holds N s d z) (ha : a ∈ N) : d.next a < 2 ^ 64 :=
  h.next a ha ▸ s.field_lt _ _

theorem Holds.prev_lt (h : Holds N s d z) (ha : a ∈ N) : d.prev a < 2 ^ 64 :=
  h.prev a ha ▸ s.field_lt _ _

structure Linked (N : List Nat) (d : Links Nat) (a : Nat) : Prop where
  mem : a ∈ N
  next : d.next a = 0 ∨ d.next a ∈ N
  prev : d.prev a = 0 ∨ d.prev a ∈ N
  prev_ne : d.prev a ≠ a

theorem Linked.cons (h : Linked N d a) (b : Nat) : Linked (b :: N) d a :=
  ⟨List.mem_cons_of_mem _ h.mem, h.next.imp_right (List.mem_cons_of_mem _),
    h.prev.imp_right (List.mem_cons_of_mem _), h.prev_ne⟩

theorem unlink_spec (h : Holds N s d z) (hN : Separated N) (ha : Linked N d a) :
    ∃ s', unlink s a = .ok s' ∧ Holds N s' (d.unlink a) z ∧ Frame N s s' := by
  obtain ⟨s₁, hs₁, h₁, hf₁⟩ := setNext_spec h hN ha.prev (h.next_lt ha.mem)
  obtain ⟨s₂, hs₂, h₂, hf₂⟩ := setPrev_spec h₁ hN ha.next (h.prev_lt ha.mem)
  refine ⟨s₂, ?_, h₂, hf₁.trans hf₂⟩
  rw [unlink, h.get_prev hN ha.mem, h.get_next hN ha.mem]
  simp only [ok_bind]
  rw [hs₁, ok_bind, h₁.get_next hN ha.mem, h₁.get_prev hN ha.mem, setNext_prev,
    setNext_next_of_ne ha.prev_ne.symm]
  exact hs₂

theorem splitTail_spec (h : Holds N s d z) (hN : Separated N) (ha : Linked N d a) (ht : t ∈ N)
    (hat : a < t) (ht₆₄ : t < 2 ^ 64) (hsize : size < 2 ^ 64) :
    ∃ s', splitTail s a t size = .ok s' ∧
      Holds N s' (d.replace a t) (Function.update (Function.update z t size) a (t - a)) ∧
      Frame N s s' := by
  have hne : a ≠ t := hat.ne
  have hnode := hN.node t ht
  -- the three fields of the tail header
  have h₁ := h.put_size hN ht hsize
  have h₂ := h₁.put_next hN ht (h.next_lt ha.mem)
  have h₃ := h₂.put_prev hN ht (h.prev_lt ha.mem)
  have hf₁ : Frame N s (s.put t .size size) := frame_put ht _ _
  have hf₂ := hf₁.trans (frame_put ht .next (d.next a))
  have hf₃ := hf₂.trans (frame_put ht .prev (d.prev a))
  obtain ⟨s₄, hs₄, h₄, hf₄⟩ := setNext_spec h₃ hN ha.prev ht₆₄
  obtain ⟨s₅, hs₅, h₅, hf₅⟩ := setPrev_spec h₄ hN ha.next ht₆₄
  have h₆ := h₅.put_size hN ha.mem (v := t - a) (by omega)
  refine ⟨s₅.put a .size (t - a), ?_, h₆, ((hf₃.trans hf₄).trans hf₅).trans (frame_put ha.mem _ _)⟩
  have hget₁ := h₁.get_next hN ha.mem
  have hget₂ := h₂.get_prev hN ha.mem
  have hget₃ := h₃.get_prev hN ha.mem
  have hget₄ := h₄.get_next hN ha.mem
  rw [setNext_next_of_ne ha.prev_ne.symm] at hget₄
  simp only [Function.update_of_ne hne] at hget₃ hget₄
  simp only [State.put] at hget₁ hget₂ hget₃
  have hs₄' := hs₄
  simp only [State.put] at hs₄'
  simp only [splitTail, set_of_node hnode, set_of_node (hN.node a ha.mem), ok_bind, hget₁, hget₂,
    hget₃, hs₄', hget₄, hs₅, usub_of_le hat.le, State.put, pure_eq_ok]

theorem grow_spec (h : Holds N s d z) (hN : Separated N) (ha : a ∈ N) (hb : b ∈ N)
    (hsum : z a + z b < 2 ^ 64) :
    ∃ s', grow s a b = .ok s' ∧ Holds N s' d (Function.update z a (z a + z b)) ∧
      Frame N s s' := by
  refine ⟨s.put a .size (z a + z b), ?_, h.put_size hN ha hsum, frame_put ha _ _⟩
  simp [grow, h.get_size hN ha, h.get_size hN hb, uadd_of_lt hsum, set_of_node (hN.node a ha),
    State.put]

theorem prepend_spec (h : Holds N s d z) (hN : Separated N) (ha : a ∈ N) (ha₆₄ : a < 2 ^ 64)
    (hhead : d.head = 0 ∨ d.head ∈ N) (hhead₆₄ : d.head < 2 ^ 64) :
    ∃ s', prepend s a = .ok s' ∧ Holds N s' (d.pushFront a) z ∧ Frame N s s' := by
  have h₁ := h.put_next hN ha hhead₆₄
  have h₂ := h₁.put_prev hN ha (v := 0) (by omega)
  have hf₂ : Frame N s ((s.put a .next d.head).put a .prev 0) :=
    (frame_put ha _ _).trans (frame_put ha _ _)
  obtain ⟨s₃, hs₃, h₃, hf₃⟩ := setPrev_spec h₂ hN hhead ha₆₄
  refine ⟨{ s₃ with free := a }, ?_, ⟨rfl, h₃.next, h₃.prev, h₃.size⟩,
    (hf₂.trans hf₃).trans ⟨rfl, rfl, fun _ _ => rfl⟩⟩
  simp only [State.put, ← h.head] at hs₃
  simp [prepend, set_of_node (hN.node a ha), hs₃]

end FerricK.Heap
