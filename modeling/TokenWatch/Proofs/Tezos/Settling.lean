import TokenWatch.Proofs.Checkpoint
import TokenWatch.Tezos.Outcome
import TokenWatch.Tezos.Watcher

/-!
Events that are pushed one after the other, each with the checkpoint that it may move. A write
follows the push that led to it, and only accepted events of new levels lead to one.
-/
namespace TokenWatch.Tezos

namespace Effect

theorem levels_push (e : Event) (answer : PushResult) (fx : List Effect) :
    levels (.push e answer :: fx) = (push e answer).level?.toList ++ levels fx := by
  cases h : (push e answer).level? <;> simp [levels, h]

theorem levels_accepted {e : Event} {level : UInt64} (h : e.level = some level)
    (fx : List Effect) : levels (.push e (.ok ()) :: fx) = level :: levels fx :=
  List.filterMap_cons_some h

theorem levels_write (key text : String) (written : Bool) (fx : List Effect) :
    levels (.write key text written :: fx) = levels fx := rfl

end Effect

namespace Handout

theorem of_level? {h : Handout} {level : UInt64} (hlevel : h.level? = some level) :
    h.answer = .ok () ∧ h.event.level = some level := by
  unfold level? Effect.level? at hlevel
  split at hlevel
  · rename_i heq
    obtain ⟨rfl, hanswer⟩ := Effect.push.inj heq
    exact ⟨hanswer, hlevel⟩
  · cases hlevel

/-- A push that fails and an event without a level give no level. -/
theorem level?_eq_none {h : Handout} (hquiet : h.answer ≠ .ok () ∨ h.event.level = none) :
    h.level? = none := by
  cases hlevel : h.level? with
  | none => rfl
  | some level =>
    obtain ⟨hanswer, hreached⟩ := of_level? hlevel
    rcases hquiet with hfailed | hnone
    · exact absurd hanswer hfailed
    · cases hnone.symm.trans hreached

end Handout

variable {p q : Progress} {h : Handout} {hs hs' : List Handout}

section Step

/-- An event moves the checkpoint if it is accepted with a level above. -/
theorem handOut_of_lt {level : UInt64} (hlevel : h.level? = some level)
    (hlt : p.watermark.current < level) :
    handOut p h =
      ({ p with
         watermark := ⟨level⟩
         store := { p.store with writable := h.writable }.put p.key (Checkpoint.toText level) },
        .ok true) := by
  obtain ⟨hanswer, he⟩ := Handout.of_level? hlevel
  simp [handOut, settle, hanswer, he, Progress.advance, Watermark.raise_of_lt hlt]

/-- Any other event leaves the checkpoint alone. -/
theorem handOut_of_not_lt (hlow : ∀ level, h.level? = some level → level ≤ p.watermark.current) :
    handOut p h = ({ p with store := { p.store with writable := h.writable } },
      h.answer.map fun _ => false) := by
  cases hanswer : h.answer with
  | error cause => simp [handOut, settle, hanswer, Except.map]
  | ok =>
    cases he : h.event.level with
    | none => simp [handOut, settle, hanswer, he, Except.map]
    | some level =>
      have hlevel : h.level? = some level := by
        simp [Handout.level?, Effect.level?, hanswer, he]
      have hlt : ¬p.watermark.current < level := UInt64.not_lt.mpr (hlow level hlevel)
      simp [handOut, settle, hanswer, he, Progress.advance, Watermark.raise_of_not_lt hlt,
        Except.map]

theorem newWrites_of_lt {level : UInt64} (hlevel : h.level? = some level)
    (hlt : p.watermark.current < level) :
    newWrites p (handOut p h).1 = [.write p.key (Checkpoint.toText level) h.writable] := by
  rw [handOut_of_lt hlevel hlt]
  simp [newWrites, Checkpoint.Store.put]

theorem newWrites_of_not_lt
    (hlow : ∀ level, h.level? = some level → level ≤ p.watermark.current) :
    newWrites p (handOut p h).1 = [] := by
  rw [handOut_of_not_lt hlow]
  simp [newWrites]

theorem effects_cons_of_lt {level : UInt64} (hlevel : h.level? = some level)
    (hlt : p.watermark.current < level) (hs : List Handout) :
    effects p (h :: hs) = .push h.event (.ok ()) ::
      .write p.key (Checkpoint.toText level) h.writable :: effects (handOut p h).1 hs := by
  rw [effects, newWrites_of_lt hlevel hlt, (Handout.of_level? hlevel).1]
  rfl

theorem effects_cons_of_not_lt
    (hlow : ∀ level, h.level? = some level → level ≤ p.watermark.current) (hs : List Handout) :
    effects p (h :: hs) = .push h.event h.answer :: effects (handOut p h).1 hs := by
  rw [effects, newWrites_of_not_lt hlow]
  rfl

/-- An event moves the checkpoint or it does not. -/
theorem moves_or_not (p : Progress) (h : Handout) :
    (∃ level, h.level? = some level ∧ p.watermark.current < level) ∨
      ∀ level, h.level? = some level → level ≤ p.watermark.current := by
  by_cases hmove : ∃ level, h.level? = some level ∧ p.watermark.current < level
  · exact .inl hmove
  · exact .inr fun level hlevel => UInt64.not_lt.mp fun hlt => hmove ⟨level, hlevel, hlt⟩

end Step

section Trace

variable {key k text : String} {mark last level : UInt64} {fx past later : List Effect}
  {written : Bool} {e : Event} {answer : PushResult}

/-- Pushes, and writes that follow them, from one watermark to another. -/
inductive Follows (key : String) : UInt64 → List Effect → UInt64 → Prop where
  | nil (mark : UInt64) : Follows key mark [] mark
  | still {mark last : UInt64} {fx : List Effect} (e : Event) (answer : PushResult)
      (low : ∀ level, (Effect.push e answer).level? = some level → level ≤ mark)
      (rest : Follows key mark fx last) : Follows key mark (.push e answer :: fx) last
  | moved {mark last : UInt64} {fx : List Effect} (e : Event) (level : UInt64) (written : Bool)
      (reached : e.level = some level) (above : mark < level) (rest : Follows key level fx last) :
      Follows key mark
        (.push e (.ok ()) :: .write key (Checkpoint.toText level) written :: fx) last

theorem follows_effects (p : Progress) (hs : List Handout) :
    Follows p.key p.watermark.current (effects p hs) (handOuts p hs).watermark.current := by
  induction hs generalizing p with
  | nil => exact .nil _
  | cons h hs ih =>
    have hrest := ih (handOut p h).1
    rw [handOuts]
    rcases moves_or_not p h with ⟨level, hlevel, hlt⟩ | hlow
    · rw [effects_cons_of_lt hlevel hlt]
      rw [handOut_of_lt hlevel hlt] at hrest ⊢
      exact .moved h.event level h.writable (Handout.of_level? hlevel).2 hlt hrest
    · rw [effects_cons_of_not_lt hlow]
      rw [handOut_of_not_lt hlow] at hrest ⊢
      exact .still h.event h.answer hlow hrest

theorem Follows.last_eq (h : Follows key mark fx last) :
    last = (Effect.levels fx).foldl max mark := by
  induction h with
  | nil mark => rfl
  | @still mark last fx e answer low rest ih =>
    rw [ih, Effect.levels_push]
    cases hlevel : (Effect.push e answer).level? with
    | none => rfl
    | some level =>
      have hmax : max mark level = mark :=
        congrArg Watermark.current
          (Watermark.seed_of_not_lt (w := ⟨mark⟩) (UInt64.not_lt.mpr (low level hlevel)))
      rw [Option.toList_some, List.singleton_append, List.foldl_cons, hmax]
  | @moved mark last fx e level written reached above rest ih =>
    have hmax : max mark level = level :=
      congrArg Watermark.current (Watermark.seed_of_lt (w := ⟨mark⟩) above)
    rw [ih, Effect.levels_accepted reached, Effect.levels_write, List.foldl_cons, hmax]

/-- A write comes right after the accepted push of an event whose level is above all before. -/
theorem Follows.push_before (h : Follows key mark fx last)
    (hsplit : fx = past ++ .write k text written :: later) :
    ∃ before e level, past = before ++ [.push e (.ok ())] ∧ e.level = some level ∧ k = key ∧
      text = Checkpoint.toText level ∧ mark < level ∧ ∀ l ∈ Effect.levels before, l < level := by
  induction h generalizing past with
  | nil mark => simp at hsplit
  | @still mark last fx e answer low rest ih =>
    cases past with
    | nil => cases hsplit
    | cons x past =>
      obtain ⟨rfl, hrest⟩ := List.cons.inj hsplit
      obtain ⟨before, e', level, rfl, hreached, hkey, htext, hlt, hbefore⟩ := ih hrest
      refine ⟨.push e answer :: before, e', level, rfl, hreached, hkey, htext, hlt, ?_⟩
      intro l hl
      rw [Effect.levels_push, List.mem_append, Option.mem_toList] at hl
      rcases hl with hl | hl
      · exact UInt64.lt_of_le_of_lt (low l hl) hlt
      · exact hbefore l hl
  | @moved mark last fx e level written' reached above rest ih =>
    match past with
    | [] => cases hsplit
    | [x] =>
      obtain ⟨rfl, hrest⟩ := List.cons.inj hsplit
      obtain ⟨hwrite, -⟩ := List.cons.inj hrest
      obtain ⟨rfl, rfl, rfl⟩ := Effect.write.inj hwrite
      exact ⟨[], e, level, rfl, reached, rfl, rfl, above, nofun⟩
    | x :: y :: past =>
      obtain ⟨rfl, htail⟩ := List.cons.inj hsplit
      obtain ⟨rfl, hrest⟩ := List.cons.inj htail
      obtain ⟨before, e', level', rfl, hreached, hkey, htext, hlt, hbefore⟩ := ih hrest
      refine ⟨_ :: _ :: before, e', level', rfl, hreached, hkey, htext,
        UInt64.lt_trans above hlt, ?_⟩
      intro l hl
      rw [Effect.levels_accepted reached, Effect.levels_write, List.mem_cons] at hl
      rcases hl with rfl | hl
      · exact hlt
      · exact hbefore l hl

/-- The accepted push of an event whose level is above all before is followed by a write. -/
theorem Follows.write_after (h : Follows key mark fx last)
    (hsplit : fx = past ++ .push e (.ok ()) :: later) (hreached : e.level = some level)
    (hlt : mark < level) (hbefore : ∀ l ∈ Effect.levels past, l < level) :
    ∃ written rest, later = .write key (Checkpoint.toText level) written :: rest := by
  induction h generalizing past with
  | nil mark => simp at hsplit
  | @still mark last fx e' answer low rest ih =>
    cases past with
    | nil =>
      obtain ⟨hpush, -⟩ := List.cons.inj hsplit
      obtain ⟨rfl, rfl⟩ := Effect.push.inj hpush
      exact absurd hlt (UInt64.not_lt.mpr (low level hreached))
    | cons x past =>
      obtain ⟨-, hrest⟩ := List.cons.inj hsplit
      exact ih hrest hlt fun l hl =>
        hbefore l (((List.sublist_cons_self x past).filterMap Effect.level?).subset hl)
  | @moved mark last fx e' level' written reached above rest ih =>
    match past with
    | [] =>
      obtain ⟨hpush, hrest⟩ := List.cons.inj hsplit
      obtain ⟨rfl, -⟩ := Effect.push.inj hpush
      obtain rfl : level' = level := Option.some.inj (reached.symm.trans hreached)
      exact ⟨written, fx, hrest.symm⟩
    | [x] =>
      obtain ⟨-, hrest⟩ := List.cons.inj hsplit
      cases hrest
    | x :: y :: past =>
      obtain ⟨rfl, htail⟩ := List.cons.inj hsplit
      obtain ⟨rfl, hrest⟩ := List.cons.inj htail
      rw [Effect.levels_accepted reached, Effect.levels_write] at hbefore
      exact ih hrest (hbefore level' List.mem_cons_self) fun l hl =>
        hbefore l (List.mem_cons_of_mem level' hl)

end Trace

section Sequence

theorem handOuts_append (p : Progress) (hs hs' : List Handout) :
    handOuts p (hs ++ hs') = handOuts (handOuts p hs) hs' := by
  induction hs generalizing p with
  | nil => rfl
  | cons h hs ih => exact ih _

theorem effects_append (p : Progress) (hs hs' : List Handout) :
    effects p (hs ++ hs') = effects p hs ++ effects (handOuts p hs) hs' := by
  induction hs generalizing p with
  | nil => rfl
  | cons h hs ih =>
    rw [List.cons_append, effects, ih, effects, handOuts, List.append_assoc]

theorem pushes_effects (p : Progress) (hs : List Handout) :
    (effects p hs).filterMap Effect.push? = hs.map Handout.bare := by
  induction hs generalizing p with
  | nil => rfl
  | cons h hs ih =>
    have hwrites : (newWrites p (handOut p h).1).filterMap Effect.push? = [] := by
      rw [List.filterMap_eq_nil_iff]
      intro x hx
      obtain ⟨write, -, rfl⟩ := List.mem_map.mp hx
      rfl
    rw [effects, List.filterMap_append, ih,
      List.filterMap_cons_some (show (Effect.push h.event h.answer).push? = some h.bare from rfl),
      hwrites]
    rfl

/-- An event comes to the same on any store, apart from whether a write comes through. -/
theorem handOut_congr {h' : Handout} (hkey : p.key = q.key) (hmark : p.watermark = q.watermark)
    (hbare : h.bare = h'.bare) :
    (handOut p h).1.key = (handOut q h').1.key ∧
      (handOut p h).1.watermark = (handOut q h').1.watermark ∧
      (handOut p h).2 = (handOut q h').2 ∧
      (newWrites p (handOut p h).1).map Effect.attempted =
        (newWrites q (handOut q h').1).map Effect.attempted := by
  obtain ⟨hevent, hanswer⟩ := Prod.mk.inj hbare
  have hsame : h'.level? = h.level? := by
    rw [Handout.level?, Handout.level?, hevent, hanswer]
  rcases moves_or_not p h with ⟨level, hlevel, hlt⟩ | hlow
  · have hlevel' : h'.level? = some level := hsame.trans hlevel
    have hlt' : q.watermark.current < level := hmark ▸ hlt
    rw [newWrites_of_lt hlevel hlt, newWrites_of_lt hlevel' hlt', handOut_of_lt hlevel hlt,
      handOut_of_lt hlevel' hlt', hkey]
    exact ⟨rfl, rfl, rfl, rfl⟩
  · have hlow' : ∀ level, h'.level? = some level → level ≤ q.watermark.current := by
      rw [hsame, ← hmark]
      exact hlow
    rw [newWrites_of_not_lt hlow, newWrites_of_not_lt hlow', handOut_of_not_lt hlow,
      handOut_of_not_lt hlow', hanswer]
    exact ⟨hkey, hmark, rfl, rfl⟩

/-- What the store does changes neither the results nor what is pushed and attempted. -/
theorem results_congr (hkey : p.key = q.key) (hmark : p.watermark = q.watermark)
    (hbare : hs.map Handout.bare = hs'.map Handout.bare) :
    results p hs = results q hs' ∧
      (effects p hs).map Effect.attempted = (effects q hs').map Effect.attempted ∧
      (handOuts p hs).watermark = (handOuts q hs').watermark := by
  induction hs generalizing p q hs' with
  | nil =>
    obtain rfl := List.map_eq_nil_iff.mp hbare.symm
    exact ⟨rfl, rfl, hmark⟩
  | cons h hs ih =>
    cases hs' with
    | nil => cases hbare
    | cons h' hs' =>
      obtain ⟨hone, hrest⟩ := List.cons.inj hbare
      obtain ⟨hevent, hanswer⟩ := Prod.mk.inj hone
      obtain ⟨hnextKey, hnextMark, hresult, hwrites⟩ := handOut_congr hkey hmark hone
      obtain ⟨hresults, heffects, hafter⟩ := ih hnextKey hnextMark hrest
      refine ⟨?_, ?_, hafter⟩
      · rw [results, results, hresult, hresults]
      · rw [effects, effects, List.map_append, List.map_append, List.map_cons, List.map_cons,
          hwrites, heffects, hevent, hanswer]

/-- An event that is not accepted, or has no level, is pushed and changes nothing. -/
theorem effects_concat_of_none (hnone : h.level? = none) (p : Progress) (hs : List Handout) :
    effects p (hs ++ [h]) = effects p hs ++ [.push h.event h.answer] ∧
      (handOuts p (hs ++ [h])).watermark = (handOuts p hs).watermark := by
  have hlow : ∀ level, h.level? = some level →
      level ≤ (handOuts p hs).watermark.current := by
    intro level hlevel
    cases hnone.symm.trans hlevel
  constructor
  · rw [effects_append, effects_cons_of_not_lt hlow]
    rfl
  · rw [handOuts_append, handOuts, handOut_of_not_lt hlow]
    rfl

/-- The pushing task of the watcher goes by the same rule. -/
theorem onPush_eq_settle (w : Watcher) (key : String) (store : Checkpoint.Store) (e : Event)
    (answer : PushResult) :
    let q := settle ⟨key, w.watermark, store⟩ e answer
    (w.onPush e answer).watermark = q.1.watermark ∧
      ∀ level, (w.onPush e answer).consumer = .storing level ↔
        q.2 = .ok true ∧ e.level = some level := by
  cases answer with
  | error cause => simp [Watcher.onPush, settle]
  | ok =>
    cases he : e.level with
    | none => simp [Watcher.onPush, settle, he]
    | some level =>
      by_cases hlt : w.watermark.current < level
      · simp [Watcher.onPush, settle, he, Progress.advance, Watermark.raise_of_lt hlt]
      · simp [Watcher.onPush, settle, he, Progress.advance, Watermark.raise_of_not_lt hlt]

/-- Events that are pushed one after the other, from any watermark on, whatever the sink answers
and the store does. Each is pushed once, in order. A write comes only right after the accepted push
of an event whose level is above the first watermark and above the levels of all events that were
accepted before, it writes that level, and after each such push there is one. A push that fails and
an event without a level come to no write and leave the watermark. Failing writes change no result,
and nothing that is pushed or attempted. In the end the watermark is the highest of where it
started and of the accepted levels. -/
theorem writes_follow_accepted_pushes (p : Progress) (hs : List Handout) :
    let fx := effects p hs
    fx.filterMap Effect.push? = hs.map Handout.bare ∧
    (∀ past key text written later, fx = past ++ .write key text written :: later →
      ∃ before e level, past = before ++ [.push e (.ok ())] ∧ e.level = some level ∧
        key = p.key ∧ text = Checkpoint.toText level ∧ p.watermark.current < level ∧
        ∀ l ∈ Effect.levels before, l < level) ∧
    (∀ past e level later, fx = past ++ .push e (.ok ()) :: later → e.level = some level →
      p.watermark.current < level → (∀ l ∈ Effect.levels past, l < level) →
      ∃ written rest, later = .write p.key (Checkpoint.toText level) written :: rest) ∧
    (∀ h : Handout, h.answer ≠ .ok () ∨ h.event.level = none →
      effects p (hs ++ [h]) = fx ++ [.push h.event h.answer] ∧
        (handOuts p (hs ++ [h])).watermark = (handOuts p hs).watermark) ∧
    (∀ hs' : List Handout, hs'.map Handout.bare = hs.map Handout.bare →
      results p hs' = results p hs ∧
        (effects p hs').map Effect.attempted = fx.map Effect.attempted ∧
        (handOuts p hs').watermark = (handOuts p hs).watermark) ∧
    (handOuts p hs).watermark.current = (Effect.levels fx).foldl max p.watermark.current := by
  intro fx
  have hfollows : Follows p.key p.watermark.current fx (handOuts p hs).watermark.current :=
    follows_effects p hs
  refine ⟨pushes_effects p hs, ?_, ?_, ?_, ?_, hfollows.last_eq⟩
  · exact fun _ _ _ _ _ hsplit => hfollows.push_before hsplit
  · exact fun _ _ _ _ hsplit hreached hlt hbefore =>
      hfollows.write_after hsplit hreached hlt hbefore
  · exact fun h hquiet => effects_concat_of_none (Handout.level?_eq_none hquiet) p hs
  · exact fun hs' hbare => results_congr rfl rfl hbare

end Sequence
end TokenWatch.Tezos
