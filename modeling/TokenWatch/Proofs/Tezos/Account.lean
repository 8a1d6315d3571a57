import TokenWatch.Hub.Error
import TokenWatch.Http.Error
import TokenWatch.Proofs.Tezos.Records
import TokenWatch.Tezos.Watcher

/-!
The Tezos watcher as one sequential account: which events come out of what the receiving task
learns from its surroundings, with no queue and no second task.
-/
namespace TokenWatch.Tezos

/-- What the receiving task learns, in the order in which it learns it. -/
inductive Observation where
  | checkpoint (level : Option UInt64)
  | head (answer : Except Http.Error UInt64)
  /-- The value of the shutdown channel before a level is replayed. -/
  | stopping (value : Bool)
  | page (channel : Channel) (level offset : UInt64)
      (answer : Except Http.Error (List Record))
  | subscribed (answer : Except Hub.Error Unit)
  /-- A change of the shutdown channel, and whether it means to stop. -/
  | change (stop : Bool)
  /-- What the feed brought, and the watermark at that moment. -/
  | batch (watermark : UInt64) (answer : Except Hub.Error Batch)

/-- How a part of an account comes to its end. -/
inductive Outcome where
  | next (tape : List Observation)
  | ended (result : Except Hub.Error Unit)
  /-- Nothing more was learnt. -/
  | waiting

structure Account where
  events : List Event
  outcome : Outcome

namespace Account

variable {a : Account} {tape : List Observation} {n : Nat}

def next (tape : List Observation) : Account := ⟨[], .next tape⟩

def ended (result : Except Hub.Error Unit) : Account := ⟨[], .ended result⟩

def waiting : Account := ⟨[], .waiting⟩

def after (a : Account) (events : List Event) : Account := ⟨events ++ a.events, a.outcome⟩

def andThen (a : Account) (k : List Observation → Account) : Account :=
  match a.outcome with
  | .next tape => (k tape).after a.events
  | _ => a

@[simp] theorem after_nil (a : Account) : a.after [] = a := rfl

@[simp] theorem after_after (a : Account) (es fs : List Event) :
    (a.after es).after fs = a.after (fs ++ es) := by
  simp [after]

@[simp] theorem next_andThen (tape : List Observation) (k : List Observation → Account) :
    (next tape).andThen k = k tape := rfl

@[simp] theorem ended_andThen (result : Except Hub.Error Unit) (k : List Observation → Account) :
    (ended result).andThen k = ended result := rfl

@[simp] theorem waiting_andThen (k : List Observation → Account) : waiting.andThen k = waiting :=
  rfl

@[simp] theorem after_andThen (a : Account) (es : List Event) (k : List Observation → Account) :
    (a.after es).andThen k = (a.andThen k).after es := by
  obtain ⟨events, outcome⟩ := a
  cases outcome <;> simp [andThen, after]

theorem andThen_assoc (a : Account) (k l : List Observation → Account) :
    (a.andThen k).andThen l = a.andThen fun tape => (k tape).andThen l := by
  obtain ⟨events, outcome⟩ := a
  cases outcome with
  | next tape => exact after_andThen (k tape) events l
  | ended result => rfl
  | waiting => rfl

def Leaves (n : Nat) (a : Account) : Prop := ∀ rest, a.outcome = .next rest → rest.length ≤ n

theorem leaves_next (h : tape.length ≤ n) : (next tape).Leaves n := by
  rintro rest ⟨⟩
  exact h

theorem leaves_of_stopped (h : ∀ tape, a.outcome ≠ .next tape) : a.Leaves n :=
  fun rest hrest => absurd hrest (h rest)

theorem Leaves.after (h : a.Leaves n) (es : List Event) : (a.after es).Leaves n := h

theorem Leaves.andThen (h : a.Leaves n) (hk : ∀ tape, tape.length ≤ n → (k tape).Leaves n) :
    (a.andThen k).Leaves n := by
  unfold Account.andThen
  split
  · rename_i tape hnext
    exact (hk tape (h tape hnext)).after a.events
  · exact h

end Account

/-- The pages of one kind of records of a level, from an offset on. The last page is one that is
not full or not answered. -/
def pages (channel : Channel) (level : UInt64) : UInt64 → List Observation → Account
  | offset, .page c l o answer :: tape =>
    if c = channel ∧ l = level ∧ o = offset then
      match answer with
      | .ok records =>
        (if pageLimit ≤ records.length then pages channel level (nextPage offset) tape
          else .next tape).after (records.filterMap Record.event?)
      | .error _ => .next tape
    else .waiting
  | _, _ => .waiting

/-- One level is replayed, unless it is time to stop: first its transfers, then its updates. -/
def replayLevel (level : UInt64) : List Observation → Account
  | .stopping value :: tape =>
    if value then .ended (.ok ())
    else (pages .transfers level 0 tape).andThen (pages .updates level 0)
  | _ => .waiting

def replayLevels (level : UInt64) : Nat → List Observation → Account
  | 0, tape => .next tape
  | count + 1, tape => (replayLevel level tape).andThen (replayLevels (level + 1) count)

/-- Every level from `start` to the head is replayed, the head included. Without a head there is
nothing to catch up with. -/
def catchUp (start : UInt64) : List Observation → Account
  | .head (.ok head) :: tape => replayLevels start (head.toNat + 1 - start.toNat) tape
  | .head (.error _) :: tape => .next tape
  | _ => .waiting

/-- The first batch of a channel is preceded by catching up, if any level is known. -/
def closeGap (first : Bool) (watermark : UInt64) (tape : List Observation) : Account :=
  if first ∧ 0 < watermark then catchUp watermark tape else .next tape

section Length
open Account

variable {n : Nat} {tape : List Observation}

theorem pages_leaves (channel : Channel) (level offset : UInt64) (h : tape.length ≤ n) :
    (pages channel level offset tape).Leaves n := by
  fun_induction pages channel level offset tape with
  | case1 offset c l o tape hmatch records ih =>
    have htape : tape.length ≤ n := by rw [List.length_cons] at h; omega
    split
    · exact (ih htape).after _
    · exact (leaves_next htape).after _
  | case2 offset c l o tape hmatch cause =>
    rw [List.length_cons] at h
    exact leaves_next (by omega)
  | case3 => exact leaves_of_stopped fun _ h => by cases h
  | case4 => exact leaves_of_stopped fun _ h => by cases h

theorem replayLevel_leaves (level : UInt64) (h : tape.length ≤ n) :
    (replayLevel level tape).Leaves n := by
  unfold replayLevel
  split
  · split
    · exact leaves_of_stopped fun _ h => by cases h
    · rw [List.length_cons] at h
      exact (pages_leaves .transfers level 0 (by omega)).andThen fun tape htape =>
        pages_leaves .updates level 0 htape
  · exact leaves_of_stopped fun _ h => by cases h

theorem replayLevels_leaves (level : UInt64) (count : Nat) (h : tape.length ≤ n) :
    (replayLevels level count tape).Leaves n := by
  induction count generalizing level tape with
  | zero => exact leaves_next h
  | succ count ih =>
    exact (replayLevel_leaves level h).andThen fun tape htape => ih (level + 1) htape

theorem closeGap_leaves (first : Bool) (watermark : UInt64) (h : tape.length ≤ n) :
    (closeGap first watermark tape).Leaves n := by
  unfold closeGap catchUp
  split
  · split
    · rw [List.length_cons] at h
      exact replayLevels_leaves watermark _ (by omega)
    · rw [List.length_cons] at h
      exact leaves_next (by omega)
    · exact leaves_of_stopped fun _ h => by cases h
  · exact leaves_next h

end Length

/-- Batches are taken up in the order of the feed, and ignored ones change nothing. `fresh` tells
of which channels no batch came yet. -/
def listen (fresh : Channel → Bool) : List Observation → Account
  | .change stop :: tape => if stop then .ended (.ok ()) else listen fresh tape
  | .batch _ (.error e) :: _ => .ended (.error e)
  | .batch watermark (.ok batch) :: tape =>
    match batch.channel? with
    | none => listen fresh tape
    | some channel =>
      match _h : (closeGap (fresh channel) watermark tape).outcome with
      | .next rest =>
        ((listen (without fresh channel) rest).after batch.events).after
          (closeGap (fresh channel) watermark tape).events
      | _ => closeGap (fresh channel) watermark tape
  | _ => .waiting
termination_by tape => tape.length
decreasing_by
  · simp
  · simp
  · exact Nat.lt_succ_of_le (closeGap_leaves _ _ (Nat.le_refl _) _ _h)

theorem listen_nil (fresh : Channel → Bool) : listen fresh [] = .waiting := by
  simp [listen]

theorem listen_batch (fresh : Channel → Bool) (watermark : UInt64) {batch : Batch}
    {channel : Channel} (h : batch.channel? = some channel) (tape : List Observation) :
    listen fresh (.batch watermark (.ok batch) :: tape) =
      (closeGap (fresh channel) watermark tape).andThen fun tape =>
        (listen (without fresh channel) tape).after batch.events := by
  rw [listen]
  simp only [h]
  unfold Account.andThen
  split <;> simp_all

/-- Nothing is received from a feed that refuses. -/
def subscribe (fresh : Channel → Bool) : List Observation → Account
  | .subscribed (.ok ()) :: tape => listen fresh tape
  | .subscribed (.error e) :: _ => .ended (.error e)
  | _ => .waiting

/-- The whole account: catching up from the checkpoint if there is one, then the feed. -/
def session (fresh : Channel → Bool) : List Observation → Account
  | .checkpoint (some level) :: tape => (catchUp level tape).andThen (subscribe fresh)
  | .checkpoint none :: tape => subscribe fresh tape
  | _ => .waiting

end TokenWatch.Tezos
