import TemporalAlgebra.Error

/-!
# The error channel

Beside its outcome, an operation may report errors: the code of the last report is kept, and
every report is handed to a handler while one is installed. The channel is a value; the handler
is seen through the list of what it received.
-/
namespace TemporalAlgebra

/-- State of the error channel. -/
structure Channel where
  /-- Code of the last report. -/
  last : ErrorCode := .success
  /-- Whether a handler is installed. -/
  handling : Bool := true
  /-- What the handler has received, first report first. -/
  received : List Error := []

/-- Severity under which every error is handed to the handler. -/
def Channel.level : String := "Error"

def Channel.report (channel : Channel) (error : Error) : Channel :=
  { channel with
    last := error.code
    received := if channel.handling then channel.received ++ [error] else channel.received }

def Channel.reportAll (channel : Channel) (errors : List Error) : Channel :=
  errors.foldl Channel.report channel

/-- Forget the last code and give it back. -/
def Channel.reset (channel : Channel) : ErrorCode × Channel :=
  (channel.last, { channel with last := .success })

def Channel.handle (channel : Channel) (on : Bool) : Channel :=
  { channel with handling := on }

/-- Take what the handler has received so far. -/
def Channel.drain (channel : Channel) : List Error × Channel :=
  (channel.received, { channel with received := [] })

end TemporalAlgebra
