import Mathlib.Data.Option.Basic

/-!
# Partial steps that may run out of room

`Attempt x room post`: the partial step `x` gives a result when there is `room`, and what
it gives satisfies `post`, room or not.
-/

namespace Sbunix

variable {α β : Type*} {x : Option α} {f : α → Option β} {room room' : Prop} {N : α → Prop}
  {mid post post' : α → Prop} {post₂ : β → Prop} {a : α}

/-- A computation that gives a result where there is room, and only results with `post`. -/
structure Attempt (x : Option α) (room : Prop) (post : α → Prop) : Prop where
  total : room → ∃ a, x = some a
  sound : ∀ a, x = some a → post a

namespace Attempt

theorem some (h : post a) : Attempt (Option.some a) room post :=
  ⟨fun _ => ⟨a, rfl⟩, fun _ hb => Option.some.inj hb ▸ h⟩

theorem consequence (h : Attempt x room post) (hroom : room' → room)
    (hpost : ∀ a, post a → post' a) : Attempt x room' post' :=
  ⟨fun hr => h.total (hroom hr), fun a ha => hpost a (h.sound a ha)⟩

/-- Two steps in a row: there must be room for the first and, after it, for the second. -/
theorem bind (h : Attempt x room mid) (hf : ∀ a, mid a → Attempt (f a) (N a) post₂) :
    Attempt (x.bind f) (room ∧ ∀ a, mid a → N a) post₂ := by
  refine ⟨fun ⟨hr, hneed⟩ => ?_, fun b hb => ?_⟩
  · obtain ⟨a, ha⟩ := h.total hr
    have hmid := h.sound a ha
    obtain ⟨b, hb⟩ := (hf a hmid).total (hneed a hmid)
    exact ⟨b, by rw [ha, Option.bind_some, hb]⟩
  · obtain ⟨a, ha, hb⟩ := Option.bind_eq_some_iff.mp hb
    exact (hf a (h.sound a ha)).sound b hb

/-- A step and a total function after it. -/
theorem map {g : α → β} (h : Attempt x room mid) (hg : ∀ a, mid a → post₂ (g a)) :
    Attempt (x.map g) room post₂ := by
  refine ⟨fun hr => ?_, fun b hb => ?_⟩
  · obtain ⟨a, ha⟩ := h.total hr
    exact ⟨g a, by rw [ha, Option.map_some]⟩
  · obtain ⟨a, ha, rfl⟩ := Option.map_eq_some_iff.mp hb
    exact hg a (h.sound a ha)

/-- A result where there is room. -/
theorem exists_some (h : Attempt x room post) (hr : room) : ∃ a, x = Option.some a ∧ post a := by
  obtain ⟨a, ha⟩ := h.total hr
  exact ⟨a, ha, h.sound a ha⟩

end Attempt

end Sbunix
