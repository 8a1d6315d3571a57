import TokenWatch.Hub.Connection

/-!
What each action of a hub connection does, whether it is the task's or the caller's.
-/
namespace TokenWatch.Hub.Connection

variable {c v : Connection} {i : Incoming} {written : Bool} {command : Command}

section Task

theorem ping_cases (h : c.step? (.ping written) = some v) :
    c.phase = .running ∧
      v = if written then { c with sent := .frame Message.encodedPing :: c.sent }
        else c.lose writeFailure := by
  simp only [step?] at h
  split at h
  · rename_i hrun
    exact ⟨hrun, (Option.some.inj h).symm⟩
  · cases h

theorem takeCommand_cases (h : c.step? (.takeCommand written) = some v) :
    ∃ command rest, c.phase = .running ∧ c.commands = command :: rest ∧
      v = { c with commands := rest }.send command written := by
  simp only [step?] at h
  split at h
  · rename_i command rest hrun hcommands
    exact ⟨command, rest, hrun, hcommands, (Option.some.inj h).symm⟩
  · cases h

theorem forward_cases (h : c.step? .forward = some v) :
    ∃ call later, c.phase = .running ∧ c.outbox = call :: later ∧ c.held = true ∧
      c.channel.length < channelSlots ∧
      v = { c with outbox := later, channel := c.channel ++ [.ok call] } := by
  simp only [step?] at h
  split at h
  · rename_i call later hrun houtbox
    split at h
    · rename_i hfree
      exact ⟨call, later, hrun, houtbox, hfree.1, hfree.2, (Option.some.inj h).symm⟩
    · cases h
  · cases h

theorem receive_cases (h : c.step? (.receive i) = some v) :
    c.phase = .running ∧ v = c.receive i := by
  simp only [step?] at h
  split at h
  · rename_i hrun
    exact ⟨hrun, (Option.some.inj h).symm⟩
  · cases h

theorem close_cases (h : c.step? .close = some v) :
    c.phase = .running ∧ c.held = false ∧
      v = { c with phase := .ended, commands := [], sent := .closed :: c.sent } := by
  simp only [step?] at h
  split at h
  · rename_i hclose
    exact ⟨hclose.1, Bool.not_eq_true _ ▸ hclose.2.1, (Option.some.inj h).symm⟩
  · cases h

/-- Without a caller a lost connection ends at once. With one it hands over its invocations while
there is room, and last its error. -/
theorem handOver_cases (h : c.step? .handOver = some v) :
    ∃ e, c.phase = .ending e ∧
      (c.held = false ∧ v = c.finish ∨
      c.held = true ∧ c.channel.length < channelSlots ∧
        ((∃ call later, c.outbox = call :: later ∧
          v = { c with outbox := later, channel := c.channel ++ [.ok call] }) ∨
        c.outbox = [] ∧ v = { c with channel := c.channel ++ [Except.error e] }.finish)) := by
  simp only [step?] at h
  split at h
  · rename_i e hending
    refine ⟨e, hending, ?_⟩
    split at h
    · rename_i hgone
      exact .inl ⟨Bool.not_eq_true _ ▸ hgone, (Option.some.inj h).symm⟩
    · rename_i hheld
      have hheld : c.held = true := by simpa using hheld
      split at h
      · cases h
      · rename_i hfree
        refine .inr ⟨hheld, Nat.not_le.mp hfree, ?_⟩
        split at h
        · rename_i call later houtbox
          exact .inl ⟨call, later, houtbox, (Option.some.inj h).symm⟩
        · rename_i houtbox
          exact .inr ⟨houtbox, (Option.some.inj h).symm⟩
  · cases h

end Task

section Caller

/-- An invocation is answered at once when the task is over, and else waits to be taken. -/
theorem invoke_cases (h : c.step? (.invoke command) = some v) :
    c.held = true ∧
      (c.phase = .ended ∧
        v = { c with replies := (command.ticket, .error (.closed none)) :: c.replies } ∨
      c.phase ≠ .ended ∧ c.commands.length < channelSlots ∧
        v = { c with commands := c.commands ++ [command] }) := by
  simp only [step?] at h
  split at h
  · cases h
  · rename_i hheld
    refine ⟨by simpa using hheld, ?_⟩
    split at h
    · rename_i hended
      exact .inl ⟨hended, (Option.some.inj h).symm⟩
    · rename_i hopen
      split at h
      · rename_i hfree
        exact .inr ⟨hopen, hfree, (Option.some.inj h).symm⟩
      · cases h

/-- A caller is told what is in the channel, and after the end that the connection is closed. -/
theorem next_cases (h : c.step? .next = some v) :
    c.held = true ∧
      ((∃ d later, c.channel = d :: later ∧
        v = { c with channel := later, delivered := d :: c.delivered }) ∨
      c.channel = [] ∧ c.phase = .ended ∧
        v = { c with delivered := .error (.closed none) :: c.delivered }) := by
  simp only [step?] at h
  split at h
  · cases h
  · rename_i hheld
    refine ⟨by simpa using hheld, ?_⟩
    split at h
    · rename_i d later hchannel
      exact .inl ⟨d, later, hchannel, (Option.some.inj h).symm⟩
    · rename_i hchannel
      split at h
      · rename_i hended
        exact .inr ⟨hchannel, hended, (Option.some.inj h).symm⟩
      · cases h

theorem drop_cases (h : c.step? .drop = some v) : c.held = true ∧ v = { c with held := false } := by
  simp only [step?] at h
  split at h
  · rename_i hheld
    exact ⟨hheld, (Option.some.inj h).symm⟩
  · cases h

end Caller

end TokenWatch.Hub.Connection
