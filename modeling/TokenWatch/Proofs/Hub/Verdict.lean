import TokenWatch.Hub.Connection
import TokenWatch.Proofs.Hub.Frames

/-!
What a caller is told by the server's frames: read one by one, and read as the connection does it,
all frames of a message before it acts on any of them.
-/
namespace TokenWatch.Hub

/-- The invocations that a caller is told, and the error that follows them. -/
structure Told where
  calls : List Call
  error : Error

def Message.Tells : Message → Prop
  | .invocation _ _ _ | .close _ => True
  | _ => False

/-- The invocations among messages up to a close message, and what that message gives as failure. -/
def heard : List Message → List Call × Option (Option String)
  | [] => ([], none)
  | .invocation _ target arguments :: rest =>
    (⟨target, arguments⟩ :: (heard rest).1, (heard rest).2)
  | .close failure :: _ => ([], some failure)
  | .completion _ _ _ :: rest | .ping :: rest | .other _ :: rest => heard rest

namespace Told

def after (t : Told) (calls : List Call) : Told := ⟨calls ++ t.calls, t.error⟩

/-- What messages tell, and `next` unless they close the connection. -/
def ofMessages (messages : List Message) (next : Told) : Told :=
  match (heard messages).2 with
  | some failure => ⟨(heard messages).1, .closed failure⟩
  | none => next.after (heard messages).1

def deliveries (t : Told) : List Delivery := t.calls.map .ok ++ [.error t.error]

theorem after_inj {t u : Told} {calls : List Call} (h : t.after calls = u.after calls) : t = u := by
  obtain ⟨tcalls, terror⟩ := t
  obtain ⟨ucalls, uerror⟩ := u
  simp only [after, mk.injEq, List.append_cancel_left_eq] at h
  rw [h.1, h.2]

/-- The calls end where the first error stands. -/
theorem deliveries_inj {t u : Told} {xs ys : List Delivery}
    (h : t.deliveries ++ xs = u.deliveries ++ ys) : t = u := by
  obtain ⟨tcalls, terror⟩ := t
  obtain ⟨ucalls, uerror⟩ := u
  simp only [deliveries, List.append_assoc] at h
  induction tcalls generalizing ucalls with
  | nil =>
    cases ucalls with
    | nil =>
      cases (List.cons.inj h).1
      rfl
    | cons call ucalls => cases (List.cons.inj h).1
  | cons call tcalls ih =>
    cases ucalls with
    | nil => cases (List.cons.inj h).1
    | cons other ucalls =>
      obtain ⟨hcall, hrest⟩ := List.cons.inj h
      cases hcall
      cases ih ucalls hrest
      rfl

end Told

/-- What frames tell that are read one by one. The end of the stream comes after the last one. -/
def plain : List (List Char) → Told
  | [] => ⟨[], .closed none⟩
  | frame :: rest =>
    match Message.parse frame with
    | .error e => ⟨[], e⟩
    | .ok message => .ofMessages [message] (plain rest)

def grouped : List (List (List Char)) → Told
  | [] => ⟨[], .closed none⟩
  | frames :: rest =>
    match frames.mapM Message.parse with
    | .error e => ⟨[], e⟩
    | .ok messages => .ofMessages messages (grouped rest)

/-- What a connection tells of what arrives on its socket. -/
def verdict : OpenFrame → List Incoming → Told
  | _, [] => ⟨[], .closed none⟩
  | b, .text cs :: rest =>
    match b.push cs with
    | (_, .error e) => ⟨[], e⟩
    | (b, .ok pieces) =>
      match pieces.mapM Message.parse with
      | .error e => ⟨[], e⟩
      | .ok messages => .ofMessages messages (verdict b rest)
  | _, .close reason :: _ => ⟨[], .closed reason⟩
  | b, .other :: rest => verdict b rest
  | _, .failed cause :: _ => ⟨[], .webSocket cause⟩
  | _, .ended :: _ => ⟨[], .closed none⟩

variable {frames rest : List (List Char)} {messages : List Message} {e : Error} {b : OpenFrame}
  {texts : List (List Char)} {next : Told}

theorem mapM_parse_cons (frame : List Char) (rest : List (List Char)) :
    (frame :: rest).mapM Message.parse =
      match Message.parse frame, rest.mapM Message.parse with
      | .error e, _ => .error e
      | .ok _, .error e => .error e
      | .ok m, .ok ms => .ok (m :: ms) := by
  rw [List.mapM_cons]
  cases Message.parse frame with
  | error e => rfl
  | ok m => cases List.mapM Message.parse rest <;> rfl

/-- Whatever arrives as texts tells the same as the groups of frames that they finish. -/
theorem verdict_texts (htail : separator ∉ b.tail)
    (unbroken : Unbroken (b.tail.reverse ++ texts.flatten)) :
    verdict b (texts.map .text ++ [.ended]) = grouped (groups b.tail texts) := by
  induction texts generalizing b with
  | nil => rfl
  | cons text texts ih =>
    rw [List.flatten_cons, ← List.append_assoc] at unbroken
    obtain ⟨hshort, hrest⟩ := unbroken.scan htail
    have hnext := ih (b := ⟨(scan b.tail text).1⟩) (scan_tail text htail).1 hrest
    simp only [List.map_cons, List.cons_append, verdict, push_of_unbroken hshort, groups, grouped,
      hnext]

theorem ofMessages_cons (m : Message) (ms : List Message) (next : Told) :
    Told.ofMessages (m :: ms) next = .ofMessages [m] (.ofMessages ms next) := by
  cases m <;> simp only [Told.ofMessages, heard] <;> cases (heard ms).2 <;> rfl

/-- Frames that can all be read tell the same one by one and together. -/
theorem plain_append (h : frames.mapM Message.parse = .ok messages) (rest : List (List Char)) :
    plain (frames ++ rest) = .ofMessages messages (plain rest) := by
  induction frames generalizing messages with
  | nil =>
    cases h
    rfl
  | cons frame frames ih =>
    rw [mapM_parse_cons] at h
    split at h
    · cases h
    · cases h
    · rename_i m ms hm hms
      cases h
      rw [List.cons_append, plain, hm, ofMessages_cons, ih hms]

section Frames
variable {frame : List Char}

def Malformed (frame : List Char) : Prop := ∃ e, Message.parse frame = .error e

def Tells (frame : List Char) : Prop := ∃ m, Message.parse frame = .ok m ∧ m.Tells

/-- A frame after which nothing is told any more. -/
def Stops (frame : List Char) : Prop :=
  Malformed frame ∨ ∃ failure, Message.parse frame = .ok (.close failure)

/-- The first malformed frame has nothing to tell before it in the message that finishes it, unless
the connection was closed by an earlier message. -/
def Harmless (gs : List (List (List Char))) : Prop :=
  ∀ past front frame back later, gs = past ++ (front ++ frame :: back) :: later →
    (∀ x ∈ past.flatten, ¬Stops x) → (∀ x ∈ front, ¬Malformed x) → Malformed frame →
      ∀ x ∈ front, ¬Tells x

theorem eq_json_of_parse (h : Message.parse frame = .error e) : e = .json "malformed message" := by
  unfold Message.parse at h
  split at h
  · cases h
  · cases h
    rfl

theorem exists_message_of_mem (h : frames.mapM Message.parse = .ok messages)
    (hframe : frame ∈ frames) : ∃ m ∈ messages, Message.parse frame = .ok m := by
  induction frames generalizing messages with
  | nil => cases hframe
  | cons first frames ih =>
    rw [mapM_parse_cons] at h
    split at h
    · cases h
    · cases h
    · rename_i m ms hm hms
      cases h
      rcases List.mem_cons.mp hframe with rfl | hframe
      · exact ⟨m, List.mem_cons_self, hm⟩
      · obtain ⟨m', hmem, hparse⟩ := ih hms hframe
        exact ⟨m', List.mem_cons_of_mem _ hmem, hparse⟩

theorem exists_frame_of_mem (h : frames.mapM Message.parse = .ok messages) {m : Message}
    (hm : m ∈ messages) : ∃ frame ∈ frames, Message.parse frame = .ok m := by
  induction frames generalizing messages with
  | nil =>
    cases h
    cases hm
  | cons first frames ih =>
    rw [mapM_parse_cons] at h
    split at h
    · cases h
    · cases h
    · rename_i m' ms hm' hms
      cases h
      rcases List.mem_cons.mp hm with rfl | hm
      · exact ⟨first, List.mem_cons_self, hm'⟩
      · obtain ⟨frame, hmem, hparse⟩ := ih hms hm
        exact ⟨frame, List.mem_cons_of_mem _ hmem, hparse⟩

theorem not_malformed_of_mem (h : frames.mapM Message.parse = .ok messages)
    (hframe : frame ∈ frames) : ¬Malformed frame := by
  rintro ⟨e, he⟩
  obtain ⟨m, -, hm⟩ := exists_message_of_mem h hframe
  rw [he] at hm
  cases hm

/-- Where not all frames can be read, there is a first one that cannot. -/
theorem exists_first_malformed (h : frames.mapM Message.parse = .error e) :
    ∃ front frame back ms, frames = front ++ frame :: back ∧
      front.mapM Message.parse = .ok ms ∧ Message.parse frame = .error e := by
  induction frames with
  | nil => cases h
  | cons first frames ih =>
    rw [mapM_parse_cons] at h
    split at h
    · rename_i he
      cases h
      exact ⟨[], first, frames, [], rfl, rfl, he⟩
    · rename_i m e' hm hrest
      cases h
      obtain ⟨front, frame, back, ms, rfl, hfront, hframe⟩ := ih hrest
      refine ⟨first :: front, frame, back, m :: ms, rfl, ?_, hframe⟩
      rw [mapM_parse_cons, hm, hfront]
    · cases h

theorem heard_eq_nil_iff : heard messages = ([], none) ↔ ∀ m ∈ messages, ¬m.Tells := by
  induction messages with
  | nil => simp [heard]
  | cons m ms ih => cases m <;> simp [heard, Message.Tells, ih]

theorem exists_close_of_heard {failure : Option String} (h : (heard messages).2 = some failure) :
    ∃ failure, .close failure ∈ messages := by
  induction messages with
  | nil => cases h
  | cons m ms ih =>
    cases m with
    | close failure => exact ⟨failure, List.mem_cons_self⟩
    | _ =>
      obtain ⟨failure, hmem⟩ := ih h
      exact ⟨failure, List.mem_cons_of_mem _ hmem⟩

theorem not_close_of_heard (h : (heard messages).2 = none) (failure : Option String) :
    .close failure ∉ messages := by
  induction messages with
  | nil => exact List.not_mem_nil
  | cons m ms ih =>
    cases m with
    | close failure => cases h
    | _ =>
      intro hmem
      rcases List.mem_cons.mp hmem with heq | hmem
      · cases heq
      · exact ih h hmem

/-- Frames that can all be read and do not close the connection stop nothing. -/
theorem not_stops_of_heard (h : frames.mapM Message.parse = .ok messages)
    (hopen : (heard messages).2 = none) (hframe : frame ∈ frames) : ¬Stops frame := by
  rintro (hmalformed | ⟨failure, hclose⟩)
  · exact not_malformed_of_mem h hframe hmalformed
  · obtain ⟨m, hm, hparse⟩ := exists_message_of_mem h hframe
    rw [hclose] at hparse
    cases hparse
    exact not_close_of_heard hopen failure hm

theorem ofMessages_eq_error_iff (hframe : Message.parse frame = .error e) :
    Told.ofMessages messages ⟨[], e⟩ = ⟨[], e⟩ ↔ ∀ m ∈ messages, ¬m.Tells := by
  rw [← heard_eq_nil_iff]
  obtain rfl := eq_json_of_parse hframe
  unfold Told.ofMessages
  cases hheard : heard messages with
  | mk calls closed => cases closed <;> simp [Told.after]

theorem tells_iff (h : frames.mapM Message.parse = .ok messages) :
    (∀ m ∈ messages, ¬m.Tells) ↔ ∀ x ∈ frames, ¬Tells x := by
  constructor
  · rintro hsilent x hx ⟨m, hm, htells⟩
    obtain ⟨m', hmem, hm'⟩ := exists_message_of_mem h hx
    cases hm.symm.trans hm'
    exact hsilent m hmem htells
  · intro hsilent m hm htells
    obtain ⟨x, hx, hparse⟩ := exists_frame_of_mem h hm
    exact hsilent x hx ⟨m, hparse, htells⟩

/-- A first group with a malformed frame is all that matters. -/
theorem harmless_malformed_iff {front back : List (List Char)} (gs : List (List (List Char)))
    (hfront : ∀ x ∈ front, ¬Malformed x) (hframe : Malformed frame) :
    Harmless ((front ++ frame :: back) :: gs) ↔ ∀ x ∈ front, ¬Tells x := by
  constructor
  · intro h
    exact h [] front frame back gs rfl (by simp) hfront hframe
  · intro hsilent past front' frame' back' later hsplit hpast hfront' hframe'
    cases past with
    | nil =>
      obtain ⟨hgroup, -⟩ := List.cons.inj hsplit
      -- The first malformed frame of a group is unique.
      rcases List.append_eq_append_iff.mp hgroup with ⟨more, hmore, hrest⟩ | ⟨more, hmore, hrest⟩
      · cases more with
        | nil =>
          rw [List.append_nil] at hmore
          rwa [hmore]
        | cons x more =>
          obtain ⟨rfl, -⟩ := List.cons.inj hrest
          exact absurd hframe (hfront' frame (by simp [hmore]))
      · intro x hx
        exact hsilent x (by simp [hmore, hx])
    | cons group past =>
      obtain ⟨rfl, -⟩ := List.cons.inj hsplit
      exact absurd (.inl hframe) (hpast frame (by simp))

/-- A first group without anything that stops does not matter. -/
theorem harmless_cons_iff {group : List (List Char)} (gs : List (List (List Char)))
    (hgroup : ∀ x ∈ group, ¬Stops x) : Harmless (group :: gs) ↔ Harmless gs := by
  constructor
  · intro h past front frame back later hsplit hpast
    apply h (group :: past) front frame back later (congrArg (group :: ·) hsplit)
    intro x hx
    rcases List.mem_append.mp hx with hx | hx
    · exact hgroup x hx
    · exact hpast x hx
  · intro h past front frame back later hsplit hpast hfront hframe
    cases past with
    | nil =>
      obtain ⟨rfl, -⟩ := List.cons.inj hsplit
      exact absurd (.inl hframe) (hgroup frame (by simp))
    | cons first past =>
      obtain ⟨rfl, hrest⟩ := List.cons.inj hsplit
      refine h past front frame back later hrest ?_ hfront hframe
      intro x hx
      exact hpast x (List.mem_append_right _ hx)

/-- After a group that closes the connection nothing matters. -/
theorem harmless_of_close {group : List (List Char)} (gs : List (List (List Char)))
    (h : group.mapM Message.parse = .ok messages) {failure : Option String}
    (hclose : (heard messages).2 = some failure) : Harmless (group :: gs) := by
  intro past front frame back later hsplit hpast hfront hframe
  cases past with
  | nil =>
    obtain ⟨rfl, -⟩ := List.cons.inj hsplit
    exact absurd hframe (not_malformed_of_mem h (by simp))
  | cons first past =>
    obtain ⟨rfl, -⟩ := List.cons.inj hsplit
    obtain ⟨failure, hmem⟩ := exists_close_of_heard hclose
    obtain ⟨x, hx, hparse⟩ := exists_frame_of_mem h hmem
    exact absurd (.inr ⟨failure, hparse⟩) (hpast x (by simp [hx]))

/-- Frames read in groups tell the same as frames read one by one unless a malformed frame takes
something with it. -/
theorem grouped_eq_plain_iff (gs : List (List (List Char))) :
    grouped gs = plain gs.flatten ↔ Harmless gs := by
  induction gs with
  | nil =>
    apply iff_of_true rfl
    intro past front frame back later hsplit
    exact absurd hsplit.symm (by simp)
  | cons group gs ih =>
    rw [grouped, List.flatten_cons]
    cases hgroup : group.mapM Message.parse with
    | error e =>
      obtain ⟨front, frame, back, ms, rfl, hfront, hframe⟩ := exists_first_malformed hgroup
      have hplain : plain ((front ++ frame :: back) ++ gs.flatten) = .ofMessages ms ⟨[], e⟩ := by
        rw [List.append_assoc, plain_append hfront, List.cons_append, plain, hframe]
      have hnot : ∀ x ∈ front, ¬Malformed x := fun x hx => not_malformed_of_mem hfront hx
      rw [harmless_malformed_iff gs hnot ⟨e, hframe⟩, ← tells_iff hfront,
        ← ofMessages_eq_error_iff hframe, hplain]
      exact eq_comm
    | ok ms =>
      dsimp only
      rw [plain_append hgroup]
      cases hclose : (heard ms).2 with
      | some failure =>
        refine iff_of_true ?_ (harmless_of_close gs hgroup hclose)
        simp only [Told.ofMessages, hclose]
      | none =>
        rw [harmless_cons_iff gs fun x hx => not_stops_of_heard hgroup hclose hx, ← ih]
        simp only [Told.ofMessages, hclose]
        exact ⟨Told.after_inj, fun h => by rw [h]⟩

end Frames

end TokenWatch.Hub
