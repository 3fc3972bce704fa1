import NestTuner.Search.Result
import NestTuner.Session.Artifacts
import NestTuner.Session.Host
import NestTuner.Session.Target

/-!
Why a session or a command fails. An error has a message and often a cause behind it.
-/

namespace NestTuner

/-- The files that are read. -/
inductive FileKind where
  | module
  | report
  | settings
  deriving DecidableEq

namespace FileKind

def text : FileKind → String
  | module => "kernel module"
  | report => "tuning report"
  | settings => "driver config"

end FileKind

inductive SessionError where
  | search (error : SearchError)
  | evaluation (failure : Failure)
  | noTarget
  | unknownTarget (target : Target)
  | stale (step : StaleStep)
  | file (error : FileError)
  | malformed
  | unreadable (kind : FileKind) (path : String) (error : FileError)
  | unparsable (kind : FileKind) (path : String)
  | invalidKernel (kernel path : String) (defect : Defect)
  /-- The threads that kernels run on cannot be had. -/
  | noThreads (reason : String)
  deriving DecidableEq

/-- One link in the chain of causes. -/
inductive Cause where
  | message (text : String)
  | file (error : FileError)
  /-- A text that is not the JSON it should be. -/
  | malformed
  deriving DecidableEq

namespace Cause

def text : Cause → String
  | message text => text
  | file error => error.message
  | malformed => "malformed JSON"

end Cause

namespace SessionError

/-- The outermost message, and the causes behind it. -/
def causes : SessionError → Cause × List Cause
  | search error => (.message error.message, (error.chain.drop 1).map .message)
  | evaluation failure => (.message failure.message, [])
  | noTarget => (.message "tune needs --function or --tag", [])
  | unknownTarget target => (.message target.missingMessage, [])
  | stale step => (.message step.message, [])
  | file error => (.file error, [])
  | malformed => (.malformed, [])
  | unreadable kind path error => (.message s!"reading {kind.text} {path}", [.file error])
  | unparsable kind path => (.message s!"parsing {kind.text} {path}", [.malformed])
  | invalidKernel kernel path defect =>
    (.message s!"invalid kernel `{kernel}` in {path}", [.message defect.message])
  | noThreads reason => (.message reason, [])

/-- All messages, outermost first. -/
def chain (e : SessionError) : List Cause :=
  e.causes.1 :: e.causes.2

/-- The causes behind a message, numbered if there are several. -/
def causeLines : List Cause → List String
  | [] => []
  | [cause] => ["", "Caused by:", "    " ++ cause.text]
  | causes => ["", "Caused by:"] ++ causes.zipIdx.map fun (cause, i) => s!"    {i}: {cause.text}"

/-- The outermost message and the causes behind it, in lines. -/
def trace (e : SessionError) : String :=
  "\n".intercalate (("Error: " ++ e.causes.1.text) :: causeLines e.causes.2)

end SessionError

end NestTuner
