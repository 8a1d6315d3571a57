import TokenWatch.Proofs.Hub.History

/-!
Invocations of a caller whose connection is lost. The task answers them once it has handed over the
server's invocations and the error, for which the channel has to have room: where it has not, an
invocation that is still queued is not answered until somebody reads from the channel.
-/
namespace TokenWatch.Hub.Connection

variable {c v : Connection} {a : Action} {as : List Action} {h ns : List Note}
  {messages : List Message} {frames : OpenFrame} {e : Error}

def AnsweredAll (c : Connection) : Prop := ∀ e, c.phase = .ending e → c.waiting = []

theorem Change.answeredAll (hc : AnsweredAll c) (change : Change c ns v) : AnsweredAll v := by
  intro e hending
  cases change with
  | answered result failure running found =>
    rw [running] at hending
    cases hending
  | sent running first =>
    simp only [send, if_true, running] at hending
    cases hending
  | lost e' running => rfl
  | finished ending held empty => cases hending
  | deserted ending gone => cases hending
  | closed running gone => cases hending
  | _ => exact hc e hending

/-- A caller that waits for an answer: it does not read from the channel, nor lets go of the
connection. -/
def Unread (_ : Connection) (a : Action) : Prop := a ≠ .next ∧ a ≠ .drop

/-- The slots that the task needs for all that it has to hand over are not there. -/
structure Stalled (e : Error) (c : Connection) : Prop where
  ending : c.phase = .ending e
  held : c.held = true
  crowded : channelSlots ≤ c.outbox.length + c.channel.length

section HandOver

theorem handOver_call {call : Call} {later : List Call} (hending : c.phase = .ending e)
    (held : c.held = true) (free : c.channel.length < channelSlots)
    (houtbox : c.outbox = call :: later) :
    c.step? .handOver = some { c with outbox := later, channel := c.channel ++ [.ok call] } := by
  simp [step?, hending, held, Nat.not_le.mpr free, houtbox]

theorem handOver_error (hending : c.phase = .ending e) (held : c.held = true)
    (free : c.channel.length < channelSlots) (houtbox : c.outbox = []) :
    c.step? .handOver = some { c with channel := c.channel ++ [Except.error e] }.finish := by
  simp [step?, hending, held, Nat.not_le.mpr free, houtbox]

theorem handOver_full (hending : c.phase = .ending e) (held : c.held = true)
    (full : channelSlots ≤ c.channel.length) : c.step? .handOver = none := by
  simp [step?, hending, held, full]

/-- With room for all that is left, the task comes to its end by itself. -/
theorem exists_ended_of_room (hending : c.phase = .ending e) (held : c.held = true)
    (room : c.outbox.length + c.channel.length < channelSlots) :
    ∃ v, Run step? Unread c (List.replicate (c.outbox.length + 1) .handOver) v ∧
      v.phase = .ended ∧
      ∀ command ∈ c.commands, (command.ticket, .error (.closed none)) ∈ v.replies := by
  have ok (c : Connection) : Unread c .handOver := ⟨nofun, nofun⟩
  induction houtbox : c.outbox generalizing c with
  | nil =>
    have free : c.channel.length < channelSlots := by omega
    have step := handOver_error hending held free houtbox
    refine ⟨_, .single (ok c) step, rfl, fun command hcommand => ?_⟩
    exact List.mem_append_left _ (List.mem_map_of_mem hcommand)
  | cons call later ih =>
    rw [houtbox, List.length_cons] at room
    have step := handOver_call hending held (by omega) houtbox
    obtain ⟨v, run, hv⟩ := @ih { c with outbox := later, channel := c.channel ++ [.ok call] }
      hending held (by simp only [List.length_append, List.length_singleton]; omega) rfl
    exact ⟨v, .cons (ok c) step run, hv⟩

/-- A stalled task comes to wait for the caller to read. -/
theorem Stalled.exists_waiting (hc : Stalled e c) :
    ∃ n v, Run step? Unread c (List.replicate n .handOver) v ∧ v.step? .handOver = none := by
  have ok (c : Connection) : Unread c .handOver := ⟨nofun, nofun⟩
  induction houtbox : c.outbox generalizing c with
  | nil =>
    have full : channelSlots ≤ c.channel.length := by simpa [houtbox] using hc.crowded
    exact ⟨0, c, .nil c, handOver_full hc.ending hc.held full⟩
  | cons call later ih =>
    by_cases full : channelSlots ≤ c.channel.length
    · exact ⟨0, c, .nil c, handOver_full hc.ending hc.held full⟩
    · have step := handOver_call hc.ending hc.held (Nat.not_le.mp full) houtbox
      have hcrowded := hc.crowded
      rw [houtbox, List.length_cons] at hcrowded
      obtain ⟨n, v, run, hv⟩ := @ih { c with outbox := later, channel := c.channel ++ [.ok call] }
        ⟨hc.ending, hc.held, by simp only [List.length_append, List.length_singleton]; omega⟩ rfl
      exact ⟨n + 1, v, .cons (ok c) step run, hv⟩

end HandOver

/-- While nobody reads, a stalled task stays stalled, and neither answers nor drops anything. -/
theorem Stalled.step (hc : Stalled e c) (ok : Unread c a) (h : c.step? a = some v) :
    Stalled e v ∧ v.replies = c.replies ∧ c.commands ⊆ v.commands := by
  have idle : c.phase ≠ .running := by simp [hc.ending]
  cases a with
  | ping written => exact absurd (ping_cases h).1 idle
  | takeCommand written =>
    obtain ⟨command, rest, hrun, -⟩ := takeCommand_cases h
    exact absurd hrun idle
  | forward =>
    obtain ⟨call, later, hrun, -⟩ := forward_cases h
    exact absurd hrun idle
  | receive i => exact absurd (receive_cases h).1 idle
  | close => exact absurd (close_cases h).1 idle
  | handOver =>
    have hcrowded := hc.crowded
    obtain ⟨e', -, ⟨hgone, -⟩ | ⟨-, hfree, ⟨call, later, houtbox, rfl⟩ | ⟨houtbox, -⟩⟩⟩ :=
      handOver_cases h
    · simp [hc.held] at hgone
    · rw [houtbox, List.length_cons] at hcrowded
      refine ⟨⟨hc.ending, hc.held, ?_⟩, rfl, List.Subset.refl _⟩
      simp only [List.length_append, List.length_singleton]
      omega
    · rw [houtbox, List.length_nil] at hcrowded
      omega
  | invoke command =>
    obtain ⟨-, ⟨hended, -⟩ | ⟨-, -, rfl⟩⟩ := invoke_cases h
    · simp [hc.ending] at hended
    · exact ⟨⟨hc.ending, hc.held, hc.crowded⟩, rfl, List.subset_append_left _ _⟩
  | next => exact absurd rfl ok.1
  | drop => exact absurd rfl ok.2

theorem Stalled.run (hc : Stalled e c) (run : Run step? Unread c as v) :
    Stalled e v ∧ v.replies = c.replies ∧ c.commands ⊆ v.commands := by
  induction run with
  | nil => exact ⟨hc, rfl, List.Subset.refl _⟩
  | cons ok step _ ih =>
    obtain ⟨hu, hreplies, hcommands⟩ := hc.step ok step
    obtain ⟨hv, hreplies', hcommands'⟩ := ih hu
    exact ⟨hv, hreplies'.trans hreplies, List.Subset.trans hcommands hcommands'⟩

/-- When a connection is lost, the invocations on the wire are answered at once. Those that are
queued, before that or later, are answered by the task alone exactly if the channel has a slot for
every invocation of the server that is still to be handed over and one for the error. If it has not,
the task comes to wait for the caller to read, and as long as the caller waits for its answer
instead, no step answers anything. -/
theorem queued_answered_iff_room (run : Run step? Anything (ofHandshake frames messages) as c)
    (lost : c.phase = .ending e) (held : c.held = true) :
    c.waiting = [] ∧
    (c.outbox.length + c.channel.length < channelSlots →
      ∃ v, Run step? Unread c (List.replicate (c.outbox.length + 1) .handOver) v ∧
        v.phase = .ended ∧
        ∀ command ∈ c.commands, (command.ticket, .error (.closed none)) ∈ v.replies) ∧
    (channelSlots ≤ c.outbox.length + c.channel.length →
      (∃ n v, Run step? Unread c (List.replicate n .handOver) v ∧ v.step? .handOver = none) ∧
      ∀ bs v, Run step? Unread c bs v → v.phase = .ending e ∧ v.replies = c.replies ∧
        c.commands ⊆ v.commands) := by
  have hall : AnsweredAll c :=
    of_run (P := fun _ c => AnsweredAll c) (fun _ _ hending => by cases hending)
      (fun _ _ _ _ hc change => change.answeredAll hc) run
  refine ⟨hall e lost, exists_ended_of_room lost held, fun crowded => ?_⟩
  have hstalled : Stalled e c := ⟨lost, held, crowded⟩
  refine ⟨hstalled.exists_waiting, fun bs v run' => ?_⟩
  obtain ⟨hv, hreplies, hcommands⟩ := hstalled.run run'
  exact ⟨hv.ending, hreplies, hcommands⟩

/-- Sixteen invocations of the server are enough for an invocation to go without an answer. -/
theorem queued_answered_iff_room_sixteen :
    ∃ c n v, Run step? Anything
        (ofHandshake .empty (List.replicate 16 (.invocation none "transfers" []) ++ [.close none]))
        [.invoke ⟨0, "SubscribeToTokenTransfers", []⟩] c ∧
      c.phase = .ending (.closed none) ∧ c.held = true ∧
      Run step? Unread c (List.replicate n .handOver) v ∧ v.step? .handOver = none ∧
      ∀ bs u, Run step? Unread c bs u → ∀ r, (0, r) ∉ u.replies := by
  let start : Connection :=
    ofHandshake .empty (List.replicate 16 (.invocation none "transfers" []) ++ [.close none])
  let c : Connection := { start with commands := [⟨0, "SubscribeToTokenTransfers", []⟩] }
  have run : Run step? Anything start [.invoke ⟨0, "SubscribeToTokenTransfers", []⟩] c :=
    .single trivial rfl
  obtain ⟨-, -, hcrowded⟩ := queued_answered_iff_room run rfl rfl
  obtain ⟨⟨n, v, run', hv⟩, hnone⟩ := hcrowded (by decide)
  refine ⟨c, n, v, run, rfl, rfl, run', hv, fun bs u run'' r hr => ?_⟩
  obtain ⟨-, hreplies, -⟩ := hnone bs u run''
  rw [hreplies] at hr
  exact List.not_mem_nil hr

end TokenWatch.Hub.Connection
