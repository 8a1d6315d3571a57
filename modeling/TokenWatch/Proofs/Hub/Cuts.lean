import TokenWatch.Proofs.Hub.Delivery

/-!
A text of the server cut into messages. The caller is told the same for every cut, except where a
malformed frame shares a message with an invocation or a close message before it: the connection
reads all frames of a message before it acts on any, so what stands before that frame is lost.
-/
namespace TokenWatch.Hub

variable {frames cs answer first : List Char} {messages : List Message} {b : OpenFrame}

def IsInvocation (frame : List Char) : Bool :=
  match Message.parse frame with
  | .ok (.invocation _ _ _) => true
  | _ => false

theorem tells_of_isInvocation {frame : List Char} (h : IsInvocation frame = true) :
    Tells frame := by
  unfold IsInvocation at h
  split at h
  · rename_i hm
    exact ⟨_, hm, trivial⟩
  · cases h

theorem not_malformed_of_tells {frame : List Char} (h : Tells frame) : ¬Malformed frame := by
  rintro ⟨e, he⟩
  obtain ⟨m, hm, -⟩ := h
  rw [he] at hm
  cases hm

theorem heard_length_le {frames : List (List Char)}
    (h : frames.mapM Message.parse = .ok messages) :
    (heard messages).1.length ≤ frames.countP IsInvocation := by
  induction frames generalizing messages with
  | nil =>
    cases h
    exact Nat.le_refl 0
  | cons frame frames ih =>
    rw [mapM_parse_cons] at h
    split at h
    · cases h
    · cases h
    · rename_i m ms hm hms
      cases h
      have hrest := ih hms
      rw [List.countP_cons]
      cases m with
      | invocation id target arguments =>
        have htrue : IsInvocation frame = true := by simp [IsInvocation, hm]
        rw [if_pos htrue]
        exact Nat.succ_le_succ hrest
      | close failure => exact Nat.zero_le _
      | _ => exact Nat.le_trans hrest (Nat.le_add_right _ _)

theorem grouped_length_le (gs : List (List (List Char))) :
    (grouped gs).calls.length ≤ gs.flatten.countP IsInvocation := by
  induction gs with
  | nil => exact Nat.le_refl 0
  | cons group gs ih =>
    rw [grouped, List.flatten_cons, List.countP_append]
    cases hgroup : group.mapM Message.parse with
    | error e => exact Nat.zero_le _
    | ok ms =>
      have hheard := heard_length_le hgroup
      dsimp only
      unfold Told.ofMessages
      split
      · exact Nat.le_trans hheard (Nat.le_add_right _ _)
      · simp only [Told.after, List.length_append]
        exact Nat.add_le_add hheard ih

/-- The handshake is over: some message brought the end of its answer, and then `first`. -/
def Opened (first : List Char) (c : Connection) : Prop :=
  ∃ b cs answer frames messages, separator ∉ b.tail ∧ answer ≠ [] ∧ separator ∉ answer ∧
    b.tail.reverse ++ cs = answer ++ separator :: first ∧
    Handshake.receive b (.text cs) = .finished frames messages ∧
    c = .ofHandshake frames messages

/-- A connection starts with what came after the answer. -/
theorem Opened.start {c : Connection} (h : Opened first c) :
    ∃ messages, (framesOf first).mapM Message.parse = .ok messages ∧
      c = .ofHandshake ⟨(scan [] first).1⟩ messages := by
  obtain ⟨b, cs, answer, frames, messages, hb, hne, hanswer, hcut, hreceive, rfl⟩ := h
  have hall : scan b.tail cs = ((scan [] first).1, (scan [] first).2 ++ [answer]) := by
    have hleft : scan [] (b.tail.reverse ++ cs) = scan b.tail cs := by
      have hreverse : separator ∉ b.tail.reverse := by simpa using hb
      rw [scan_append, scan_of_not_mem hreverse []]
      simp
    rw [← hleft, hcut, scan_append, scan_of_not_mem hanswer, scan_cons_separator]
    simp [hne]
  have hframes : (scan [] first).2.reverse = framesOf first := scan_frames List.not_mem_nil
  by_cases hshort : byteSize (scan b.tail cs).1 ≤ messageLimit
  · have hpush := push_of_unbroken hshort
    rw [hall, List.reverse_append, hframes] at hpush
    simp only [Handshake.receive, hpush, Handshake.receiveFrames, List.reverse_singleton,
      List.singleton_append] at hreceive
    split at hreceive
    · cases hreceive
    · split at hreceive
      · cases hreceive
      · rename_i messages hparse
        cases hreceive
        exact ⟨_, hparse, rfl⟩
  · have hlong : messageLimit < byteSize (scan b.tail cs).1 := Nat.not_le.mp hshort
    have hpush : b.push cs = (.empty, .error (.frameTooLarge (byteSize (scan b.tail cs).1))) := by
      simp only [OpenFrame.push, scan] at hlong ⊢
      rw [if_pos hlong]
    simp only [Handshake.receive, hpush] at hreceive
    cases hreceive

namespace Connection

variable {first : List Char} {texts : List (List Char)} {c v : Connection} {as : List Action}

/-- The connection has room for all that the server sends. -/
theorem open_of_opened (opened : Opened first c) (unbroken : Unbroken (first ++ texts.flatten))
    (few : (framesOf (first ++ texts.flatten)).countP IsInvocation ≤ maxWaiting) :
    Open c (texts.map .text ++ [.ended]) ∧ c.delivered = [] ∧
      c.forecast (texts.map .text ++ [.ended]) =
        (grouped (groups [] (first :: texts))).deliveries := by
  obtain ⟨messages, hparse, rfl⟩ := opened.start
  have hempty : separator ∉ ([] : List Char) := List.not_mem_nil
  have hframes : (scan [] first).2.reverse = framesOf first := scan_frames hempty
  obtain ⟨-, hrest⟩ := @Unbroken.scan [] first texts.flatten unbroken hempty
  have hgroups : grouped (groups [] (first :: texts)) =
      .ofMessages messages (verdict ⟨(scan [] first).1⟩ (texts.map .text ++ [.ended])) := by
    rw [verdict_texts (scan_tail first hempty).1 hrest, groups, grouped, hframes, hparse]
  have hroom := grouped_length_le (groups [] (first :: texts))
  rw [flatten_groups hempty, hgroups] at hroom
  let start : Connection :=
    { frames := ⟨(scan [] first).1⟩, outbox := [], waiting := [], lastId := 0, commands := [],
      channel := [], phase := .running, held := true, sent := [], replies := [], delivered := [] }
  have hforeseen := @dispatch_foreseen start (texts.map .text ++ [.ended]) messages rfl rfl
    (by simp) rfl (by simpa [start] using Nat.le_trans hroom few)
  obtain ⟨hopen, hforecast, hdelivered⟩ := hforeseen
  refine ⟨hopen, hdelivered, ?_⟩
  rw [hgroups]
  exact hforecast

/-- A caller that keeps asking is always told what the groups of frames tell, and then that the
connection is closed. That is what the text tells, however it is cut, exactly if no malformed frame
has something to tell before it in its message. -/
theorem told_plainly_iff_harmless (opened : Opened first c)
    (unbroken : Unbroken (first ++ texts.flatten))
    (few : (framesOf (first ++ texts.flatten)).countP IsInvocation ≤ maxWaiting)
    (run : Run step? Listening c as v) (arrived : received as <+: texts.map .text ++ [.ended]) :
    let gs := groups [] (first :: texts)
    let text := first ++ texts.flatten
    (v.Finished → ∃ more, (∀ d ∈ more, AfterEnd d) ∧
      v.delivered.reverse = (grouped gs).deliveries ++ more) ∧
    (v.Finished → ((∃ more, (∀ d ∈ more, AfterEnd d) ∧
      v.delivered.reverse = (plain (framesOf text)).deliveries ++ more) ↔ Harmless gs)) ∧
    ∃ bs u, Run step? Listening v bs u ∧
      received (as ++ bs) <+: texts.map .text ++ [.ended] ∧ u.Finished := by
  intro gs text
  obtain ⟨rest, hrest⟩ := arrived
  obtain ⟨hopen, hdelivered, hforecast⟩ := open_of_opened opened unbroken few
  rw [← hrest] at hopen hforecast
  obtain ⟨hopenv, more, hmore, hline⟩ := run_foreseen run hopen
  rw [hdelivered, hforecast, List.reverse_nil, List.nil_append] at hline
  have htold : v.Finished → v.delivered.reverse = (grouped gs).deliveries ++ more := by
    intro hv
    have hnothing : v.forecast rest = [] := by simp [forecast, hv.phase, hv.channel]
    rw [hnothing, List.append_nil] at hline
    exact hline
  have hplain : grouped gs = plain (framesOf text) ↔ Harmless gs := by
    rw [← grouped_eq_plain_iff, flatten_groups List.not_mem_nil]
    rfl
  refine ⟨fun hv => ⟨more, hmore, htold hv⟩, fun hv => ⟨?_, ?_⟩, ?_⟩
  · rintro ⟨others, -, hothers⟩
    exact hplain.mp (Told.deliveries_inj ((htold hv).symm.trans hothers))
  · intro hharmless
    exact ⟨more, hmore, hplain.mpr hharmless ▸ htold hv⟩
  · obtain ⟨bs, u, run', hreceived, hu⟩ := exists_finished hopenv
    refine ⟨bs, u, run', ?_, hu⟩
    rw [← hrest, received, List.filterMap_append]
    exact (List.prefix_append_right_inj _).mpr hreceived

/-- An invocation and a frame that is no message, in one message of the server. -/
def spoiledText : List Char :=
  "\x7b\"type\":1,\"target\":\"transfers\",\"arguments\":[1]\x7d\x1e?\x1e".toList

/-- The caller is never told of the invocation. -/
theorem told_plainly_iff_harmless_spoiled :
    ∃ as v, Run step? Listening (.ofHandshake .empty []) as v ∧
      received as <+: [.text spoiledText, .ended] ∧ v.Finished ∧
      ¬∃ more, (∀ d ∈ more, AfterEnd d) ∧
        v.delivered.reverse = (plain (framesOf spoiledText)).deliveries ++ more := by
  have opened : Opened [] (.ofHandshake .empty []) := by
    refine ⟨.empty, "\x7b\x7d\x1e".toList, "\x7b\x7d".toList, .empty, [], ?_, ?_, ?_, rfl, rfl, rfl⟩
    · exact List.not_mem_nil
    · decide
    · decide
  have unbroken : Unbroken ([] ++ [spoiledText].flatten) := unbroken_of_short (by decide +kernel)
  have few : (framesOf ([] ++ [spoiledText].flatten)).countP IsInvocation ≤ maxWaiting := by
    decide +kernel
  obtain ⟨-, -, as, v, run, arrived, hv⟩ :=
    told_plainly_iff_harmless opened unbroken few (.nil _) List.nil_prefix
  refine ⟨as, v, run, arrived, hv, fun hplain => ?_⟩
  obtain ⟨-, hiff, -⟩ := told_plainly_iff_harmless opened unbroken few run arrived
  have harmless := (hiff hv).mp hplain
  let call : List Char :=
    "\x7b\"type\":1,\"target\":\"transfers\",\"arguments\":[1]\x7d".toList
  have hsplit : groups [] [[], spoiledText] = [[]] ++ ([call] ++ ['?'] :: []) :: [] := by
    decide +kernel
  have hcall : Tells call := tells_of_isInvocation (by decide +kernel)
  have hread : ∀ x ∈ [call], ¬Malformed x := by
    intro x hx
    rw [List.mem_singleton.mp hx]
    exact not_malformed_of_tells hcall
  have hmalformed : Malformed ['?'] := ⟨_, rfl⟩
  exact harmless [[]] [call] ['?'] [] [] hsplit (by simp) hread hmalformed call
    (List.mem_singleton_self call) hcall

end Connection
end TokenWatch.Hub
