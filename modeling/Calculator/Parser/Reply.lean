import Calculator.Failure
import Calculator.Parser.State

/-!
# Replies of parser rules

A rule hands on the state in which it stopped, whether it succeeded or not. `Bounded` adds the proof
that it has given no character back, which is what lets rules go on where other rules stopped and
still come to an end. Going on with a bounded reply is going on with the reply itself
(`Bounded.reply_andThen`).
-/

namespace Calculator.Parser

/-- What a rule leaves behind. -/
structure Reply (α : Type) where
  /-- What the rule found, or why it stopped. -/
  result : Except Failure α
  /-- The state in which it stopped. -/
  state : State

/-- Go on with a finding where the rule stopped. -/
def Reply.andThen {α β : Type} (reply : Reply α) (next : α → State → Reply β) : Reply β :=
  match reply with
  | ⟨.ok found, t⟩ => next found t
  | ⟨.error failure, t⟩ => ⟨.error failure, t⟩

/-- The reply of a rule that was started in `s` and has given no character back. -/
structure Bounded (s : State) (α : Type) where
  /-- What the rule left behind. -/
  reply : Reply α
  /-- Not more is to come than where the rule was started. -/
  remaining_le : reply.state.remaining ≤ s.remaining

namespace Bounded

variable {α β : Type} {s t : State}

/-- Stop in `t` with a finding. -/
@[inline]
def done (found : α) (t : State) (h : t.remaining ≤ s.remaining) : Bounded s α :=
  ⟨⟨.ok found, t⟩, h⟩

/-- Stop in `t` because of what stands at `position`. -/
@[inline]
def fail (cause : Failure.Cause) (position : Nat) (t : State) (h : t.remaining ≤ s.remaining) :
    Bounded s α :=
  ⟨⟨.error ⟨cause, position⟩, t⟩, h⟩

/-- The same reply, seen from an earlier state. -/
@[inline]
def widen (h : t.remaining ≤ s.remaining) (b : Bounded t α) : Bounded s α :=
  ⟨b.reply, Nat.le_trans b.remaining_le h⟩

/-- Go on with a finding where the rule stopped. -/
@[inline]
def andThen (b : Bounded s α)
    (next : α → (t : State) → t.remaining ≤ s.remaining → Bounded t β) : Bounded s β :=
  match b with
  | ⟨⟨.ok found, t⟩, h⟩ => (next found t h).widen h
  | ⟨⟨.error failure, t⟩, h⟩ => ⟨⟨.error failure, t⟩, h⟩

/-- Close the factor that was open, however the rule ended. -/
@[inline]
def leave (b : Bounded s.enter α) : Bounded s α :=
  ⟨⟨b.reply.result, b.reply.state.leave⟩, b.remaining_le⟩

theorem reply_andThen (b : Bounded s α)
    {next : α → (t : State) → t.remaining ≤ s.remaining → Bounded t β} {f : α → State → Reply β}
    (hf : ∀ a t h, (next a t h).reply = f a t) : (b.andThen next).reply = b.reply.andThen f := by
  obtain ⟨⟨_ | found, t⟩, h⟩ := b
  · rfl
  · exact hf found t h

end Bounded

end Calculator.Parser
