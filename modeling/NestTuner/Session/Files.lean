import NestTuner.Measure.Cache
import NestTuner.Session.Error
import NestTuner.Session.Report
import NestTuner.Session.Settings

/-!
Modules, reports, settings and caches in files.
-/

namespace NestTuner

variable {m : Type → Type} [Monad m]

/-- Reads and parses a file. -/
def Host.load {α : Type} (host : Host m) (kind : FileKind) (parse : String → Option α)
    (path : String) : m (Except SessionError α) := do
  match ← host.read path with
  | .error e => return .error (.unreadable kind path e)
  | .ok text =>
    match parse text with
    | none => return .error (.unparsable kind path)
    | some a => return .ok a

namespace Report

def load (host : Host m) : String → m (Except SessionError Report) :=
  host.load .report ofText?

def save (host : Host m) (path : String) (r : Report) : m (Except FileError Unit) :=
  host.save path r.text

end Report

namespace Settings

def load (host : Host m) : String → m (Except SessionError Settings) :=
  host.load .settings ofText?

def save (host : Host m) (path : String) (s : Settings) : m (Except FileError Unit) :=
  host.save path s.text

end Settings

namespace Module

/-- Reads a module and checks its kernels. -/
def load (host : Host m) (path : String) : m (Except SessionError Module) := do
  match ← host.read path with
  | .error e => return .error (.unreadable .module path e)
  | .ok text =>
    match ofText text with
    | .ok module => return .ok module
    | .error .malformed => return .error (.unparsable .module path)
    | .error (.invalid kernel defect) => return .error (.invalidKernel kernel path defect)

def save (host : Host m) (path : String) (module : Module) : m (Except FileError Unit) :=
  host.save path module.text

end Module

namespace Cache

/-- The cache in a file for a scope; empty if there is no file. -/
def load (host : Host m) (path scope : String) : m (Except SessionError Cache) := do
  if !(← host.isPresent path) then return .ok (empty scope)
  match ← host.read path with
  | .error e => return .error (.file e)
  | .ok text =>
    match ofText? scope text with
    | none => return .error .malformed
    | some c => return .ok c

def save (host : Host m) (path : String) (c : Cache) : m (Except FileError Unit) :=
  host.save path c.text

end Cache

end NestTuner
