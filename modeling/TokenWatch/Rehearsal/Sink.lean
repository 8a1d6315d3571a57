import TokenWatch.EventProcessor

/-!
An event processor that answers from a list.
-/
namespace TokenWatch.Rehearsal

inductive SinkAnswer where
  | status (code : Int32)
  | api (status : Http.Status) (body : String)
deriving DecidableEq

namespace SinkAnswer

def accept : SinkAnswer := status 200

def result : SinkAnswer → PushResult
  | status code => Receipt.result ⟨code⟩
  | api code body => .error (.client (.api code body))

end SinkAnswer

/-- The answers still to come; when none is left every event is accepted. -/
structure Sink where
  answers : List SinkAnswer
  /-- Newest first. -/
  pushes : List (Event × SinkAnswer)

namespace Sink

def ofAnswers (answers : List SinkAnswer) : Sink := ⟨answers, []⟩

def push (s : Sink) (e : Event) : Sink × SinkAnswer :=
  let answer := s.answers.headD .accept
  (⟨s.answers.tail, (e, answer) :: s.pushes⟩, answer)

end Sink
end TokenWatch.Rehearsal
