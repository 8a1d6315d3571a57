import TokenWatch.Proofs.Tezos.GapClosure

/-!
What is in line when the feed takes over from catching up. Before each record in line stand all
records of lower levels from the checkpoint on, at the start, while a gap is closed and ever after.
-/
namespace TokenWatch.Tezos

/-- A feed that brings all records of an archive above a level, lower levels first. -/
structure Archive.Feeds (a : Archive) (above : UInt64) (script : List Record) : Prop where
  complete : ∀ r, a.Holds r → above < r.level → r ∈ script
  ordered : script.Pairwise fun r s => above < r.level → above < s.level → r.level ≤ s.level

namespace Archive

variable {a : Archive} {c above mark head : UInt64} {rs es past script : List Record}

/-- All records from a level on up to another one are there. -/
def Covered (a : Archive) (c above : UInt64) (rs : List Record) : Prop :=
  ∀ r, a.Holds r → c ≤ r.level → r.level ≤ above → r ∈ rs

/-- What a catch-up replays closes the list without a gap if it starts from one of its levels. -/
theorem GapFree.append_replay (h : a.GapFree c rs)
    (hmark : mark = c ∨ ∃ r ∈ rs, r.level = mark) (head : UInt64) :
    a.GapFree c (rs ++ a.replay mark head) := by
  have hhead := head.toNat_lt
  refine h.append_span ?_ (by rw [UInt64.size]; omega)
  intro s hs hlow hlt
  have hlt : s.level < mark := UInt64.lt_iff_toNat_lt.mpr hlt
  rcases hmark with rfl | ⟨r, hr, rfl⟩
  · exact absurd hlow (UInt64.not_le.mpr hlt)
  · exact h.mem hr hs hlow hlt

theorem Covered.append_replay (h : a.GapFree c rs)
    (hmark : mark = c ∨ ∃ r ∈ rs, r.level = mark) (habove : above ≤ head) :
    a.Covered c above (rs ++ a.replay mark head) := by
  intro s hs hlow hhigh
  by_cases hle : mark ≤ s.level
  · have hmem := mem_replay.mpr ⟨hs, hle, UInt64.le_trans hhigh habove⟩
    exact List.mem_append_right _ hmem
  · have hlt : s.level < mark := UInt64.not_le.mp hle
    rcases hmark with rfl | ⟨r, hr, rfl⟩
    · exact absurd hlow hle
    · exact List.mem_append_left _ (h.mem hr hs hlow hlt)

/-- What the feed brings next leaves no gap after all that it brought before. -/
theorem GapFree.append_feed (h : a.GapFree c rs) (hcovered : a.Covered c above rs)
    (feeds : a.Feeds above script) (hpast : ∀ r ∈ past, r ∈ rs) (hpre : past ++ es <+: script) :
    a.GapFree c (rs ++ es) := by
  apply h.append
  intro p r q hsplit s hs hlow hlt
  by_cases hle : s.level ≤ above
  · exact List.mem_append_left _ (hcovered s hs hlow hle)
  have habove : above < s.level := UInt64.not_le.mp hle
  obtain ⟨rest, hscript⟩ := hpre
  have hscript : script = (past ++ p) ++ r :: (q ++ rest) := by
    rw [← hscript, hsplit]
    simp
  have hmem := feeds.complete s hs habove
  have hordered := feeds.ordered
  rw [hscript] at hmem hordered
  rcases List.mem_append.mp hmem with hbefore | hafter
  · rcases List.mem_append.mp hbefore with hs | hs
    · exact List.mem_append_left _ (hpast s hs)
    · exact List.mem_append_right _ hs
  · rcases List.mem_cons.mp hafter with rfl | hlater
    · exact absurd hlt (UInt64.lt_irrefl _)
    · -- A record of a lower level cannot come after `r`.
      have hr := (List.pairwise_cons.mp (List.pairwise_append.mp hordered).2.1).1 s hlater
      have hle := hr (UInt64.lt_trans habove hlt) habove
      exact absurd hlt (UInt64.not_lt.mpr hle)

end Archive

namespace Watcher

variable {a : Archive} {c above mark head : UInt64} {rs es past script : List Record}
  {w v : Watcher} {act : Action} {as : List Action}

def Action.content (act : Action) : List Record := (act.batch?.map Batch.content).getD []

def fed (as : List Action) : List Record := as.flatMap Action.content

theorem content_of_quiet (hq : act.Quiet) : act.content = [] := by
  unfold Action.content
  cases hb : act.batch? with
  | none => rfl
  | some b =>
    have hchannel := hq b hb
    cases b with
    | ignored => rfl
    | _ => cases hchannel

theorem fed_of_quiet (hq : ∀ act ∈ as, act.Quiet) : fed as = [] :=
  List.flatMap_eq_nil_iff.mpr fun act hact => content_of_quiet (hq act hact)

/-- The feed can take over: the levels up to `above` are covered, and all that it brought is in
line. -/
structure TakenOver (a : Archive) (c above : UInt64) (past rs : List Record) : Prop where
  covered : a.Covered c above rs
  delivered : ∀ r ∈ past, r ∈ rs

/-- The stages of a watcher that has read its checkpoint, after all that came from the feed. -/
inductive Stage (a : Archive) (c above : UInt64) : List Record → Watcher → Prop where
  | opening {w : Watcher} (seen : List UInt64) (catching : CatchingUp a [] c .subscribe seen w)
      (fresh : ∀ channel, w.fresh channel = true) : Stage a c above [] w
  | closing {w : Watcher} (rs past : List Record) (b : Batch) (mark : UInt64) (seen : List UInt64)
      (gapFree : a.GapFree c rs) (origin : mark = c ∨ ∃ r ∈ rs, r.level = mark)
      (catching : CatchingUp a (rs.filterMap Record.event?) mark (.batch b.events) seen w)
      (ready : TakenOver a c above past rs ∨
        past = [] ∧ (seen = [] → ∃ channel, w.fresh channel = true) ∧ ∀ head ∈ seen, above ≤ head) :
      Stage a c above (past ++ b.content) w
  | live {w : Watcher} (rs past : List Record) (gapFree : a.GapFree c rs)
      (taken : TakenOver a c above past rs)
      (point : w.receiver = .subscribe ∨ w.receiver = .listen ∨ ∃ result, w.receiver = .done result)
      (line : w.inLine = rs.filterMap Record.event?) : Stage a c above past w

theorem TakenOver.append {b : Batch} (taken : TakenOver a c above past rs) :
    TakenOver a c above (past ++ b.content) (rs ++ b.content) := by
  constructor
  · intro r hr hlow hhigh
    exact List.mem_append_left _ (taken.covered r hr hlow hhigh)
  · intro r hr
    rcases List.mem_append.mp hr with hr | hr
    · exact List.mem_append_left _ (taken.delivered r hr)
    · exact List.mem_append_right _ hr

/-- Answers from the archive, where the head that is seen before the feed first takes over is not
below the level from which on the feed is complete. -/
def HonestAbove (a : Archive) (above : UInt64) (w : Watcher) (act : Action) : Prop :=
  a.Answers w act ∧
    ∀ start events head, w.receiver = .head start (.batch events) →
      (∃ channel, w.fresh channel = true) → act = .head (.ok head) → above ≤ head

/-- Without a batch of records a stage is kept. -/
theorem Stage.quiet (hw : Stage a c above past w) (hr : w.receiver ≠ .load)
    (ok : HonestAbove a above w act) (h : w.step? act = some v) (hq : act.Quiet) :
    Stage a c above past v := by
  have hfresh := fresh_of_quiet hr h hq
  cases hw with
  | opening seen catching fresh =>
    exact .opening _ (catching.step ok.1 h hq) (by rwa [hfresh])
  | closing rs past b mark seen gapFree origin catching ready =>
    have hnext := catching.step ok.1 h hq
    refine .closing rs past b mark _ gapFree origin hnext (ready.imp_right ?_)
    rintro ⟨hpast, hnew, hheads⟩
    refine ⟨hpast, ?_, ?_⟩
    · intro hnone
      rw [hfresh]
      exact hnew (List.append_eq_nil_iff.mp hnone).1
    · intro head hhead
      cases seen with
      | nil =>
        have hact : act = .head (.ok head) := eq_head_of_head? (by simpa using hhead)
        exact ok.2 mark b.events head catching.point_of_unseen (hnew rfl) hact
      | cons first more =>
        -- A catch-up asks for the head only once.
        have hlength := hnext.seen_length
        have hsame : more ++ act.head?.toList = [] := by
          simpa using hlength
        rw [List.cons_append, hsame, List.mem_singleton] at hhead
        exact hheads head (by simp [hhead])
  | live rs past gapFree taken point line =>
    by_cases ha : act.Receives
    case neg =>
      have hside := receiveSide_of_not_receives h ha
      simp only [receiveSide, Prod.mk.injEq] at hside
      obtain ⟨hrv, -, -, hv⟩ := hside
      exact .live rs past gapFree taken (by rwa [hrv]) (hv.trans line)
    rcases point with hsubscribe | hlisten | ⟨result, hdone⟩
    · obtain ⟨-, hv, hrv⟩ := waiting_step (.inl hsubscribe) h ha hq
      exact .live rs past gapFree taken hrv (hv.trans line)
    · obtain ⟨-, hv, hrv⟩ := waiting_step (.inr hlisten) h ha hq
      exact .live rs past gapFree taken hrv (hv.trans line)
    · have htakes := takes_of_receives ha h
      rw [hdone] at htakes
      cases act <;> exact htakes.elim

section Feeds
variable (feeds : a.Feeds above script)
include feeds

/-- After a gap is closed the feed can take over, and the batch that was put off leaves no gap. -/
theorem takenOver_of_closing {b : Batch} (hpre : past ++ b.content <+: script)
    (gapFree : a.GapFree c rs) (origin : mark = c ∨ ∃ r ∈ rs, r.level = mark)
    (ready : TakenOver a c above past rs ∨ past = [] ∧ above ≤ head) :
    let all := rs ++ a.replay mark head ++ b.content
    a.GapFree c all ∧ TakenOver a c above (past ++ b.content) all ∧
      all.filterMap Record.event? =
        rs.filterMap Record.event? ++ (a.replay mark head).filterMap Record.event? ++ b.events := by
  intro all
  have hfree := gapFree.append_replay origin head
  have taken : TakenOver a c above past (rs ++ a.replay mark head) := by
    rcases ready with taken | ⟨rfl, habove⟩
    · constructor
      · intro r hr hlow hhigh
        exact List.mem_append_left _ (taken.covered r hr hlow hhigh)
      · intro r hr
        exact List.mem_append_left _ (taken.delivered r hr)
    · exact ⟨.append_replay gapFree origin habove, fun r hr => by cases hr⟩
  refine ⟨hfree.append_feed taken.covered feeds taken.delivered hpre, taken.append, ?_⟩
  rw [List.filterMap_append, List.filterMap_append, Batch.filterMap_event?_content]

/-- In every stage, what is in line begins a list without a gap. -/
theorem Stage.exists_gapFree (hw : Stage a c above past w) (hpre : past <+: script) :
    ∃ rs, a.GapFree c rs ∧ w.inLine <+: rs.filterMap Record.event? := by
  cases hw with
  | opening seen catching fresh =>
    rcases catching.line_isPrefix with ⟨-, hline⟩ | ⟨head, -, hline⟩
    · exact ⟨[], Archive.gapFree_nil, hline ▸ List.nil_prefix⟩
    · refine ⟨a.replay c head, ?_, by simpa [Resume.events] using hline⟩
      exact Archive.gapFree_nil.append_replay (.inl rfl) head
  | closing rs past b mark seen gapFree origin catching ready =>
    rcases catching.line_isPrefix with ⟨-, hline⟩ | ⟨head, hseen, hline⟩
    · exact ⟨rs, gapFree, hline ▸ List.prefix_rfl⟩
    · have hready : TakenOver a c above past rs ∨ past = [] ∧ above ≤ head :=
        ready.imp_right fun h => ⟨h.1, h.2.2 head (by simp [hseen])⟩
      obtain ⟨hfree, -, hevents⟩ := takenOver_of_closing feeds hpre gapFree origin hready
      exact ⟨_, hfree, hevents ▸ hline⟩
  | live rs past gapFree taken point line => exact ⟨rs, gapFree, line ▸ List.prefix_rfl⟩

/-- When a batch can come, either none came yet or the feed has taken over. -/
theorem Stage.listening (hw : Stage a c above past w) (hpre : past <+: script)
    (hr : w.receiver = .listen) :
    ∃ rs, a.GapFree c rs ∧ w.inLine = rs.filterMap Record.event? ∧
      (TakenOver a c above past rs ∨ past = [] ∧ ∀ channel, w.fresh channel = true) := by
  cases hw with
  | opening seen catching fresh =>
    obtain ⟨head, -, hline⟩ := catching.line_of_waiting (.inr hr)
    refine ⟨a.replay c head, ?_, by simpa [Resume.events] using hline, .inr ⟨rfl, fresh⟩⟩
    exact Archive.gapFree_nil.append_replay (.inl rfl) head
  | closing rs past b mark seen gapFree origin catching ready =>
    obtain ⟨head, hseen, hline⟩ := catching.line_of_waiting (.inr hr)
    have hready : TakenOver a c above past rs ∨ past = [] ∧ above ≤ head :=
      ready.imp_right fun h => ⟨h.1, h.2.2 head (by simp [hseen])⟩
    obtain ⟨hfree, htaken, hevents⟩ := takenOver_of_closing feeds hpre gapFree origin hready
    exact ⟨_, hfree, hevents ▸ hline, .inl htaken⟩
  | live rs past gapFree taken point line => exact ⟨rs, gapFree, line, .inl taken⟩

/-- A batch of records is put off until its gap is closed, or it comes next in line. -/
theorem Stage.batch {b : Batch} {channel : Channel} (hw : Stage a c above past w)
    (hpre : past ++ b.content <+: script) (hb : b.channel? = some channel)
    (hpos : 0 < w.watermark.current)
    (origin : ∀ rs : List Record, w.inLine = rs.filterMap Record.event? →
      w.watermark.current = c ∨ ∃ r ∈ rs, r.level = w.watermark.current)
    (h : w.step? (.batch (.ok b)) = some v) : Stage a c above (past ++ b.content) v := by
  obtain ⟨hp, hr, hv⟩ := batch_cases h
  have hbefore : past <+: script := (List.prefix_append past b.content).trans hpre
  obtain ⟨rs, gapFree, hline, hready⟩ := hw.listening feeds hbefore hr
  cases hfresh : w.fresh channel with
  | true =>
    have catching := catchingUp_of_batch (a := a) hb hfresh hpos h
    rw [hline] at catching
    refine .closing rs past b w.watermark.current [] gapFree (origin rs hline) catching ?_
    refine hready.imp_right fun hnew => ⟨hnew.1, fun _ => ?_, fun head hhead => by cases hhead⟩
    have hfreshv : v.fresh = without w.fresh channel := by
      rw [hv, onBatch_of_channel w hb, ← fresh_seen]
      exact congrArg Prod.fst (kept_onEvents (w.seen channel) (w.fresh channel) b.events)
    cases channel with
    | transfers => exact ⟨.updates, by simp [hfreshv, without, hnew.2]⟩
    | updates => exact ⟨.transfers, by simp [hfreshv, without, hnew.2]⟩
  | false =>
    have taken : TakenOver a c above past rs := by
      rcases hready with taken | ⟨-, hall⟩
      · exact taken
      · exact absurd (hall channel) (by simp [hfresh])
    have hevents : v = { w.seen channel with pending := b.events } := by
      rw [hv, onBatch_of_channel w hb, hfresh]
      simp [onEvents]
    refine .live (rs ++ b.content) _ ?_ taken.append ?_ ?_
    · exact gapFree.append_feed taken.covered feeds taken.delivered hpre
    · rw [hevents]
      exact .inr (.inl ((receiver_seen w channel).trans hr))
    · rw [(inLine_of_receives h trivial).2, hline, List.filterMap_append,
        Batch.filterMap_event?_content, hevents]

/-- What holds along a run of a watcher that has read its checkpoint. -/
structure Tracked (a : Archive) (c above : UInt64) (past : List Record) (w : Watcher) : Prop where
  stage : Stage a c above past w
  marked : Marked c w
  inOrder : w.InOrder
  read : w.receiver ≠ .load

theorem Tracked.step (hw : Tracked a c above past w) (hpos : 0 < c)
    (hpre : past ++ act.content <+: script) (ok : HonestAbove a above w act)
    (h : w.step? act = some v) : Tracked a c above (past ++ act.content) v := by
  refine ⟨?_, hw.marked.step hw.read h, hw.inOrder.step h, ne_load_of_step hw.read h⟩
  by_cases hq : act.Quiet
  · rw [content_of_quiet hq, List.append_nil]
    exact hw.stage.quiet hw.read ok h hq
  · obtain ⟨b, hb, hchannel⟩ : ∃ b, act.batch? = some b ∧ b.channel? ≠ none := by
      simpa [Action.Quiet] using hq
    obtain ⟨channel, hchannel⟩ := Option.ne_none_iff_exists'.mp hchannel
    have hact : act = .batch (.ok b) := by
      unfold Action.batch? at hb
      split at hb
      · cases hb
        rfl
      · cases hb
    subst hact
    refine hw.stage.batch feeds hpre hchannel ?_ ?_ h
    · exact UInt64.lt_of_lt_of_le hpos hw.marked.watermark.1
    · intro rs hline
      have hhanded := hw.inOrder.handed_isPrefix
      rw [hline] at hhanded
      exact hw.marked.watermark.record hhanded

theorem tracked_of_run (hpos : 0 < c) (run : Run step? (HonestAbove a above) w as v)
    (hw : Tracked a c above past w) (hpre : past ++ fed as <+: script) :
    Tracked a c above (past ++ fed as) v := by
  induction run generalizing past with
  | nil =>
    rw [show fed [] = [] from rfl, List.append_nil]
    exact hw
  | @cons w u v act as ok h _ ih =>
    have hfed : fed (act :: as) = act.content ++ fed as := List.flatMap_cons
    rw [hfed, ← List.append_assoc] at hpre ⊢
    have hnext := (List.prefix_append (past ++ act.content) (fed as)).trans hpre
    exact ih (hw.step feeds hpos hnext ok h) hpre

end Feeds

end Watcher
end TokenWatch.Tezos
