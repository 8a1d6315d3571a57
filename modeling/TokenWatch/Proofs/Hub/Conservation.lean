import TokenWatch.Proofs.Hub.Arrival

/-!
Server invocations on their way to the caller. Each one that was dispatched is delivered, in the
channel or in the outbox, and after the loss of a connection the caller is told all of them, then
the error, and then only that the connection is closed.
-/
namespace TokenWatch.Hub.Connection

variable {c u v : Connection} {a : Action} {as bs : List Action} {h ns : List Note}
  {messages : List Message} {frames : OpenFrame} {n : Nat}

section Conserved

def returned (c : Connection) : List Call := c.delivered.reverse.filterMap Except.toOption

def line (c : Connection) : List Delivery := c.delivered.reverse ++ c.channel

/-- What a caller is told that goes on asking: every invocation, and after a loss its error and then
some times that the connection is closed. -/
def script (h : List Note) (n : Nat) : List Delivery :=
  (Note.calls h).map .ok ++
    match Note.loss? h with
    | some e => .error e :: List.replicate n (.error (.closed none))
    | none => []

/-- No invocation is lost or told twice. -/
structure Conserved (h : List Note) (c : Connection) : Prop where
  going : c.phase ≠ .ended → c.line ++ c.outbox.map .ok = (Note.calls h).map .ok
  running : c.phase = .running → Note.loss? h = none
  ending : ∀ e, c.phase = .ending e → Note.loss? h = some e
  ended : c.phase = .ended → ∃ n, c.line <+: script h n ∧
    (c.held = true → Note.loss? h ≠ none ∧ c.line = script h n)

/-- What neither dispatches nor puts an invocation into the channel. -/
theorem Conserved.of_same (hc : Conserved h c) (hline : v.line = c.line)
    (same : (v.outbox, v.phase, v.held) = (c.outbox, c.phase, c.held))
    (quiet : Note.calls ns = [] ∧ Note.loss? ns = none) : Conserved (h ++ ns) v := by
  simp only [Prod.mk.injEq] at same
  obtain ⟨houtbox, hphase, hheld⟩ := same
  have hcalls : Note.calls (h ++ ns) = Note.calls h := by
    rw [Note.calls_append, quiet.1, List.append_nil]
  have hloss : Note.loss? (h ++ ns) = Note.loss? h := by
    rw [Note.loss?_append, quiet.2, Option.or_none]
  have hscript (n : Nat) : script (h ++ ns) n = script h n := by
    rw [script, script, hcalls, hloss]
  constructor
  · rw [hphase, hline, houtbox, hcalls]
    exact hc.going
  · rw [hphase, hloss]
    exact hc.running
  · rw [hphase, hloss]
    exact hc.ending
  · simp only [hphase, hheld, hline, hscript, hloss]
    exact hc.ended

/-- Until its end a connection has told nothing but invocations that were dispatched. -/
theorem Conserved.line_isPrefix (hc : Conserved h c) (going : c.phase ≠ .ended) (n : Nat) :
    c.line <+: script h n := by
  have hline : c.line <+: (Note.calls h).map .ok := hc.going going ▸ List.prefix_append _ _
  exact hline.trans (List.prefix_append _ _)

/-- Nothing more is told where nobody asks. -/
theorem Conserved.of_gone (hc : Conserved h c) (going : c.phase ≠ .ended)
    (gone : c.held = false) (hline : v.line = c.line) (hended : v.phase = .ended)
    (hheld : v.held = c.held) : Conserved h v where
  going hgoing := absurd hended hgoing
  running hrun := by simp [hended] at hrun
  ending e hending := by simp [hended] at hending
  ended _ := ⟨0, hline ▸ hc.line_isPrefix going 0, fun held => by simp [hheld, gone] at held⟩

theorem conserved_blank (frames : OpenFrame) : Conserved [] (blank frames) where
  going _ := rfl
  running _ := rfl
  ending _ hending := by cases hending
  ended hended := by cases hended

theorem Conserved.appendCall (hc : Conserved h c) (running : c.phase = .running) (call : Call) :
    Conserved (h ++ [.dispatched call]) { c with outbox := c.outbox ++ [call] } := by
  constructor
  · intro going
    have hline := hc.going going
    simp only [line, List.map_append, Note.calls_append] at hline ⊢
    rw [← List.append_assoc, hline]
    rfl
  · intro _
    rw [Note.loss?_append, hc.running running]
    rfl
  · intro e hending
    rw [running] at hending
    cases hending
  · intro hended
    rw [running] at hended
    cases hended

theorem Conserved.loseWith (hc : Conserved h c) (running : c.phase = .running) (e : Error) :
    Conserved (h ++ [.lost e]) (c.lose e) := by
  constructor
  · intro _
    have hline := hc.going (by simp [running])
    rw [Note.calls_append]
    exact hline.trans (congrArg _ (List.append_nil _).symm)
  · intro hrun
    cases hrun
  · intro e' hending
    cases hending
    rw [Note.loss?_append, hc.running running]
    rfl
  · intro hended
    cases hended

/-- The first of the outbox becomes the last of the channel. -/
theorem Conserved.passOn (hc : Conserved h c) {call : Call} {later : List Call}
    (going : c.phase ≠ .ended) (first : c.outbox = call :: later) :
    Conserved h { c with outbox := later, channel := c.channel ++ [.ok call] } := by
  constructor
  · intro _
    rw [← hc.going going, first]
    simp [line]
  · exact hc.running
  · exact hc.ending
  · exact fun hended => absurd hended going

/-- A connection that is over has told a caller that stayed exactly what there was to tell. -/
theorem Conserved.of_script (hloss : Note.loss? h ≠ none) (hline : c.line = script h n)
    (hended : c.phase = .ended) : Conserved h c where
  going going := absurd hended going
  running hrun := by simp [hended] at hrun
  ending e hending := by simp [hended] at hending
  ended _ := ⟨n, hline ▸ List.prefix_rfl, fun _ => ⟨hloss, hline⟩⟩

/-- The error follows the last invocation. -/
theorem Conserved.tellError (hc : Conserved h c) {e : Error} (ending : c.phase = .ending e)
    (empty : c.outbox = []) :
    Conserved h ({ c with channel := c.channel ++ [Except.error e] } : Connection).finish := by
  have hline := hc.going (by simp [ending])
  have hloss := hc.ending e ending
  have hscript : c.line ++ [.error e] = script h 0 := by
    rw [script, hloss, ← hline, empty]
    simp
  refine .of_script (n := 0) (by simp [hloss]) ?_ rfl
  rw [← hscript]
  exact (List.append_assoc _ _ _).symm

/-- Whoever asks again after all was told is told that the connection is closed. -/
theorem Conserved.tellClosed (hc : Conserved h c) (held : c.held = true) (empty : c.channel = [])
    (hended : c.phase = .ended) :
    Conserved h { c with delivered := .error (.closed none) :: c.delivered } := by
  obtain ⟨n, -, hheld⟩ := hc.ended hended
  obtain ⟨hloss, hline⟩ := hheld held
  obtain ⟨e, he⟩ := Option.ne_none_iff_exists'.mp hloss
  refine .of_script (n := n + 1) hloss ?_ hended
  simp only [line, script, empty, he, List.append_nil] at hline ⊢
  rw [List.reverse_cons, hline, List.replicate_succ']
  simp

theorem Conserved.letGo (hc : Conserved h c) : Conserved h { c with held := false } := by
  constructor
  · exact hc.going
  · exact hc.running
  · exact hc.ending
  · intro hended
    obtain ⟨n, hpart, -⟩ := hc.ended hended
    exact ⟨n, hpart, fun hheld => by cases hheld⟩

theorem Change.conserved (hc : Conserved h c) (change : Change c ns v) :
    Conserved (h ++ ns) v := by
  cases change with
  | dispatched call running room => exact hc.appendCall running call
  | lost e running => exact hc.loseWith running e
  | passedOn going held first free => exact (List.append_nil h).symm ▸ hc.passOn going first
  | finished ending held empty => exact (List.append_nil h).symm ▸ hc.tellError ending empty
  | deserted ending gone =>
    exact (List.append_nil h).symm ▸ hc.of_gone (by simp [ending]) gone rfl rfl rfl
  | closed running gone =>
    exact (List.append_nil h).symm ▸ hc.of_gone (by simp [running]) gone rfl rfl rfl
  | @got d later held first =>
    have hline : ({ c with channel := later, delivered := d :: c.delivered } : Connection).line =
        c.line := by simp [line, first]
    exact hc.of_same hline rfl ⟨rfl, rfl⟩
  | gotNothing held empty ended =>
    exact (List.append_nil h).symm ▸ hc.tellClosed held empty ended
  | dropped held => exact (List.append_nil h).symm ▸ hc.letGo
  | _ => exact hc.of_same rfl rfl ⟨rfl, rfl⟩

/-- No run loses an invocation or tells one twice. -/
theorem conserved_of_run {allowed : Connection → Action → Prop}
    (run : Run step? allowed (ofHandshake frames messages) as v) :
    Conserved (historyOf frames messages as) v :=
  of_run conserved_blank (fun _ _ _ _ hc change => change.conserved hc) run

theorem script_mono {m : Nat} (hle : n ≤ m) : script h n <+: script h m := by
  obtain ⟨k, rfl⟩ := Nat.exists_eq_add_of_le hle
  unfold script
  split
  · rw [← List.replicate_append_replicate, ← List.cons_append, ← List.append_assoc]
    exact List.prefix_append _ _
  · exact List.prefix_rfl

theorem returned_script (h : List Note) (n : Nat) :
    (script h n).filterMap Except.toOption = Note.calls h := by
  have hcalls (calls : List Call) :
      (calls.map .ok : List Delivery).filterMap Except.toOption = calls := by
    induction calls with
    | nil => rfl
    | cons call calls ih => exact congrArg _ ih
  have herrors (n : Nat) (e : Error) :
      (List.replicate n (.error e) : List Delivery).filterMap Except.toOption = [] :=
    List.filterMap_replicate_of_none rfl
  rw [script, List.filterMap_append, hcalls]
  split
  · rename_i e _
    rw [List.filterMap_cons_none rfl, herrors, List.append_nil]
  · exact List.append_nil _

/-- What a caller was told is the beginning of what it is to be told. -/
theorem Conserved.delivered_isPrefix (hc : Conserved h c) :
    ∃ n, c.delivered.reverse <+: script h n := by
  have hline : c.delivered.reverse <+: c.line := List.prefix_append _ _
  by_cases hended : c.phase = .ended
  · obtain ⟨n, hpart, -⟩ := hc.ended hended
    exact ⟨n, hline.trans hpart⟩
  · exact ⟨0, hline.trans (hc.line_isPrefix hended 0)⟩

end Conserved

section Reading

/-- A caller that does nothing but ask for the next invocation, after a loss. -/
def Reading (_ : Connection) : Action → Prop
  | .handOver | .next => True
  | _ => False

def toHandOver (c : Connection) : Nat := c.outbox.length + if c.phase = .ended then 0 else 1

theorem reading_step (ok : Reading c a) (h : c.step? a = some v) :
    v.delivered.length + c.toHandOver = c.delivered.length + v.toHandOver + 1 := by
  cases a with
  | handOver =>
    obtain ⟨e, hending, ⟨-, rfl⟩ | ⟨-, -, ⟨call, later, houtbox, rfl⟩ | ⟨houtbox, rfl⟩⟩⟩ :=
      handOver_cases h
    · simp [toHandOver, hending, finish]
      omega
    · simp [toHandOver, hending, houtbox]
      omega
    · simp [toHandOver, hending, houtbox, finish]
  | next =>
    obtain ⟨-, ⟨d, later, -, rfl⟩ | ⟨-, -, rfl⟩⟩ := next_cases h
    · simp [toHandOver]
      omega
    · simp [toHandOver]
      omega
  | _ => exact ok.elim

/-- Every step of a reading caller is a hand-over, of which there are not many, or tells it
something. -/
theorem reading_run (run : Run step? Reading c bs v) :
    v.delivered.length + c.toHandOver = c.delivered.length + v.toHandOver + bs.length ∧
      c.history bs = [] := by
  induction run with
  | nil => exact ⟨rfl, rfl⟩
  | @cons c u v a as ok step _ ih =>
    have hfirst := reading_step ok step
    obtain ⟨hrest, hnone⟩ := ih
    rw [history_cons step, hnone, List.append_nil, List.length_cons]
    refine ⟨by omega, ?_⟩
    cases a with
    | handOver => rfl
    | next => rfl
    | _ => exact ok.elim

theorem Conserved.lost_iff (hc : Conserved h c) (held : c.held = true) :
    c.phase ≠ .running ↔ ∃ e, Note.loss? h = some e := by
  constructor
  · intro hstop
    cases hphase : c.phase with
    | running => exact absurd hphase hstop
    | ending e => exact ⟨e, hc.ending e hphase⟩
    | ended =>
      obtain ⟨n, -, hheld⟩ := hc.ended hphase
      exact Option.ne_none_iff_exists'.mp (hheld held).1
  · rintro ⟨e, lost⟩ hrun
    simp [hc.running hrun] at lost

/-- After a loss the caller never waits but for one hand-over. -/
theorem Conserved.next_of_lost {e : Error} (hc : Conserved h c) (lost : Note.loss? h = some e)
    (held : c.held = true) (waits : c.step? .next = none) :
    ∃ u w, c.step? .handOver = some u ∧ u.step? .next = some w := by
  cases hchannel : c.channel with
  | cons d later => simp [step?, held, hchannel] at waits
  | nil =>
    cases hphase : c.phase with
    | running => simp [hc.running hphase] at lost
    | ended => simp [step?, held, hchannel, hphase] at waits
    | ending e' =>
      cases houtbox : c.outbox with
      | nil => simp [step?, held, hchannel, hphase, houtbox, channelSlots, finish]
      | cons call later => simp [step?, held, hchannel, hphase, houtbox, channelSlots]

theorem Conserved.script_of_reading {e : Error} (hc : Conserved h c)
    (lost : Note.loss? h = some e) (run : Run step? Reading c bs v)
    (enough : (Note.calls h).length + c.outbox.length + n + 2 ≤ bs.length) :
    script h n <+: v.delivered.reverse := by
  obtain ⟨hcount, hnothing⟩ := reading_run run
  have hv : Conserved h v := by
    have hchanges := run_changes run
    rw [hnothing] at hchanges
    have hv := hchanges.preserves (fun _ _ _ _ hc change => change.conserved hc) hc
    rwa [List.append_nil] at hv
  -- All steps but this many tell the caller something, so that it was told enough.
  have hleft : c.toHandOver ≤ c.outbox.length + 1 := by
    unfold toHandOver
    split
    · omega
    · omega
  have hlength : (script h n).length = (Note.calls h).length + (n + 1) := by simp [script, lost]
  obtain ⟨m, hpart⟩ := hv.delivered_isPrefix
  refine List.prefix_of_prefix_length_le (script_mono (Nat.le_max_left n m))
    (hpart.trans (script_mono (Nat.le_max_right n m))) ?_
  rw [hlength, List.length_reverse]
  omega

end Reading

/-- Whatever the steps of a connection and its caller, what the caller got are the first of the
invocations that were dispatched, which are those that arrived before the end. Until the end the
others are in the channel and in the outbox. After a loss the caller is told all of them, then the
error, and from then on that the connection is closed: it never waits but for one hand-over, and a
caller that asks often enough gets as much of that as one likes. -/
theorem delivered_once_in_order
    (run : Run step? Anything (ofHandshake frames messages) as v) :
    let h := historyOf frames messages as
    v.returned <+: Note.calls h ∧
    (v.phase ≠ .ended → v.line ++ v.outbox.map .ok = (Note.calls h).map .ok) ∧
    Note.calls h <+: arrived frames messages as ∧
    (Note.loss? h ≠ some .backlog → Note.calls h = arrived frames messages as) ∧
    (∃ n, v.delivered.reverse <+: script h n) ∧
    (v.held = true → (v.phase ≠ .running ↔ ∃ e, Note.loss? h = some e)) ∧
    ∀ e, Note.loss? h = some e → v.held = true →
      (v.step? .next = none → ∃ u w, v.step? .handOver = some u ∧ u.step? .next = some w) ∧
      ∀ n bs u, Run step? Reading v bs u →
        (Note.calls h).length + v.outbox.length + n + 2 ≤ bs.length →
        script h n <+: u.delivered.reverse := by
  intro h
  have hv : Conserved h v := conserved_of_run run
  obtain ⟨n, hpart⟩ := hv.delivered_isPrefix
  obtain ⟨harrived, hall⟩ := calls_arrived run
  have hreturned : v.returned <+: Note.calls h := by
    have hmap := hpart.filterMap Except.toOption
    rwa [returned_script] at hmap
  refine ⟨hreturned, hv.going, harrived, hall, ⟨n, hpart⟩, hv.lost_iff, ?_⟩
  intro e lost held
  refine ⟨hv.next_of_lost lost held, ?_⟩
  intro n bs u reading enough
  exact hv.script_of_reading lost reading enough

/-- The hub closes a connection with an invocation in the outbox. -/
theorem delivered_once_in_order_closed :
    ∃ v u, Run step? Anything (ofHandshake .empty [.invocation none "transfers" []])
        [.receive (.close (some "bye"))] v ∧
      Run step? Reading v [.handOver, .handOver, .next, .next, .next] u ∧
      [.ok ⟨"transfers", []⟩, .error (.closed (some "bye")), .error (.closed none)] <+:
        u.delivered.reverse := by
  let start : Connection := ofHandshake .empty [.invocation none "transfers" []]
  let lost : Connection := start.receive (.close (some "bye"))
  have run : Run step? Anything start [.receive (.close (some "bye"))] lost :=
    .single trivial rfl
  obtain ⟨u, reading⟩ : ∃ u, Run step? Reading lost [.handOver, .handOver, .next, .next, .next] u :=
    ⟨_, .cons trivial rfl (.cons trivial rfl (.cons trivial rfl (.cons trivial rfl
      (.single trivial rfl))))⟩
  obtain ⟨-, -, -, -, -, -, hlost⟩ := delivered_once_in_order run
  obtain ⟨-, htold⟩ := hlost (.closed (some "bye")) rfl rfl
  exact ⟨lost, u, run, reading, htold 1 _ u reading (by decide)⟩

end TokenWatch.Hub.Connection
