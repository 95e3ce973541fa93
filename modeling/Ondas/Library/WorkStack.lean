import Ondas.Library.Decoder

/-!
# Recursion on a work stack

A recursion that must not use the call stack keeps what is left to do in a list. A turn takes the
first item, changes a state and leaves items to be done before the others (`workLoop`). Some items
are worked off with the effect of a decoder when the loop, whatever lies below them, does that and
goes on with the rest (`Works`). The rules follow a recursion: one item by its turn and what the
turn leaves, a list of items one after the other. Enough fuel gives the result then
(`Works.enough`).
-/

namespace Ondas.Library

universe u v w

section
variable {σ : Type u} {ε : Type v} {ι α : Type w}

/-- The loop of a work stack, the first item on top. -/
def workLoop (turn : ι → α → Decoder σ ε (List ι × α)) :
    Nat → List ι → α → Decoder σ ε (List ι × α)
  | 0, work, a => pure (work, a)
  | _ + 1, [], a => pure ([], a)
  | fuel + 1, item :: work, a => do
    let (more, a) ← turn item a
    workLoop turn fuel (more ++ work) a

/-- From a state and an input, some items are worked off within `k` turns, with the effect of
`f`. -/
def Works (turn : ι → α → Decoder σ ε (List ι × α)) (k : Nat) (items : List ι) (a : α)
    (f : Decoder σ ε α) (s : σ) : Prop :=
  ∃ j ≤ k, ∀ fuel work, workLoop turn (j + fuel) (items ++ work) a s =
    (f >>= fun a => workLoop turn fuel work a) s

variable {turn : ι → α → Decoder σ ε (List ι × α)} {k l : Nat} {items more : List ι} {item : ι}
  {a a' : α} {f g : Decoder σ ε α} {s s' : σ} {e : ε}

/-- No items are no work. -/
theorem Works.nil (turn : ι → α → Decoder σ ε (List ι × α)) (k : Nat) (a : α) (s : σ) :
    Works turn k [] a (pure a) s :=
  ⟨0, Nat.zero_le k, fun fuel work => by rw [Nat.zero_add, List.nil_append, pure_bind]⟩

theorem Works.mono (h : Works turn k items a f s) (hk : k ≤ l) : Works turn l items a f s := by
  obtain ⟨j, hj, hloop⟩ := h
  exact ⟨j, Nat.le_trans hj hk, hloop⟩

/-- Items are worked off one after the other. -/
theorem Works.append {h : α → Decoder σ ε α} (hitems : Works turn k items a f s)
    (hmore : ∀ a' s', f s = (.ok a', s') → Works turn l more a' (h a') s') :
    Works turn (k + l) (items ++ more) a (f >>= h) s := by
  obtain ⟨j, hj, hloop⟩ := hitems
  rcases hf : f s with ⟨e | a', s'⟩
  · refine ⟨j, Nat.le_trans hj (Nat.le_add_right k l), fun fuel work => ?_⟩
    rw [List.append_assoc, hloop, Decoder.bind_of_error hf,
      Decoder.bind_of_error (Decoder.bind_of_error hf)]
  · obtain ⟨i, hi, hrest⟩ := hmore a' s' hf
    refine ⟨j + i, Nat.add_le_add hj hi, fun fuel work => ?_⟩
    rw [Nat.add_assoc, List.append_assoc, hloop, Decoder.bind_of_ok hf, hrest, bind_assoc,
      Decoder.bind_of_ok hf]

/-- A turn that fails. -/
theorem Works.error (hturn : turn item a s = (.error e, s')) (hf : f s = (.error e, s')) :
    Works turn (k + 1) [item] a f s := by
  refine ⟨1, Nat.le_add_left 1 k, fun fuel work => ?_⟩
  rw [Nat.add_comm, List.singleton_append, workLoop, Decoder.bind_of_error hturn,
    Decoder.bind_of_error hf]

/-- A turn, and the items that it leaves. -/
theorem Works.first (hturn : turn item a s = (.ok (more, a'), s'))
    (hmore : Works turn k more a' g s') (hf : f s = g s') : Works turn (k + 1) [item] a f s := by
  obtain ⟨j, hj, hloop⟩ := hmore
  refine ⟨j + 1, Nat.add_le_add_right hj 1, fun fuel work => ?_⟩
  have hstep : workLoop turn (j + fuel + 1) (item :: work) a s =
      workLoop turn (j + fuel) (more ++ work) a' s' := Decoder.bind_of_ok hturn
  rw [Nat.add_right_comm, List.singleton_append, hstep, hloop]
  rcases hg : g s' with ⟨e | a'', s''⟩
  · rw [Decoder.bind_of_error hg, Decoder.bind_of_error (hf.trans hg)]
  · rw [Decoder.bind_of_ok hg, Decoder.bind_of_ok (hf.trans hg)]

/-- A turn that does something and then leaves items, which do the rest. -/
theorem Works.bind {β : Type w} {x : Decoder σ ε β} {left : β → List ι} {next : β → α}
    {rest : β → Decoder σ ε α} (hturn : turn item a = x >>= fun b => pure (left b, next b))
    (hf : f = x >>= rest)
    (h : ∀ b s', x s = (.ok b, s') → Works turn k (left b) (next b) (rest b) s') :
    Works turn (k + 1) [item] a f s := by
  rcases hx : x s with ⟨e | b, s'⟩
  · have hfails : turn item a s = (.error e, s') := by rw [hturn, Decoder.bind_of_error hx]
    exact Works.error hfails (by rw [hf, Decoder.bind_of_error hx])
  · have hleft : turn item a s = (.ok (left b, next b), s') := by
      rw [hturn, Decoder.bind_of_ok hx, Decoder.pure_apply]
    exact Works.first hleft (h b s' hx) (by rw [hf, Decoder.bind_of_ok hx])

/-- A turn that leaves no items. -/
theorem Works.last (hturn : turn item a = f >>= fun b => pure ([], b)) :
    Works turn (k + 1) [item] a f s :=
  Works.bind hturn (bind_pure f).symm fun b s' _ => .nil turn k b s'

/-- With fuel for the turns the loop ends, with the effect of the work. -/
theorem Works.enough (h : Works turn k items a f s) {fuel : Nat} (hfuel : k ≤ fuel) :
    workLoop turn fuel items a s = (f >>= fun a => pure ([], a)) s := by
  obtain ⟨j, hj, hloop⟩ := h
  have hdone : ∀ n, (fun a => workLoop turn n [] a) = fun a => pure ([], a) := fun n => by
    cases n <;> rfl
  have := hloop (fuel - j) []
  rwa [Nat.add_sub_cancel' (Nat.le_trans hj hfuel), List.append_nil, hdone] at this

end

end Ondas.Library
