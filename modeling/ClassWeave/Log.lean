import ClassWeave.Tree.Code

/-!
# Events

What the operations have to say about their work, apart from their results. Each operation has a
function that gives its events in order; `Event.render` is the only place that words them.
-/

namespace ClassWeave

inductive Level where
  | debug
  | info
  | warn
  | error
  deriving DecidableEq, Repr

def Level.word : Level → String
  | debug => "DEBUG"
  | info => "INFO"
  | warn => "WARN"
  | error => "ERROR"

inductive Event where
  | mangledMember (cls : ClassName) (member desc physical : String)
  | conflictingOverrides (cls : ClassName) (member : String) (version : Version)
      (kept ignored : String)
  | superclassesDisagree (cls physical : ClassName) (bridges : Nat)
  | mergedClass (cls : ClassName) (versions members : Nat)
  | splitWarning (warning : String)
  | absentInTarget (cls : ClassName) (target : Version)
  | removedByDirective (cls : ClassName) (target : Version)
  | unusedStub (cls : ClassName) (target : Version)
  | projectedClass (cls : ClassName) (target : Version) (members redirects typeRemaps : Nat)
  | conflictingRedirects (site : String)
  | conflictingStubs (cls kept dropped : ClassName)
  | linkedClass (cls : ClassName) (target : Version) (changed : Nat)
  | groupFailed (cls : ClassName) (error : String)
  | listedVersion (version : Version) (classes : Nat)
  | mergeStarted (classes versions knownSupers : Nat)
  | wroteMerged (cls : ClassName) (members : Nat)
  | loadFailed (cls : ClassName) (error : String)
  | splitStarted (classes : Nat) (target : Version)
  | pooledRedirects (redirects typeRemaps : Nat)
  | releaseFailed (path error : String)
  | runFinished (summary : String)
  deriving DecidableEq, Repr

namespace Event

/-- The level, the message and the named values of an event. -/
def parts : Event → Level × String × List (String × String)
  | mangledMember cls member desc physical => (.debug, "Mangled conflicting member",
    [("class", cls.text), ("member", member), ("desc", desc), ("physical", physical)])
  | conflictingOverrides cls member version kept ignored => (.warn, "Conflicting name overrides",
    [("class", cls.text), ("member", member), ("version", version.id), ("kept", kept),
      ("ignored", ignored)])
  | superclassesDisagree cls physical bridges => (.debug, "Versions disagree on superclass",
    [("class", cls.text), ("physical", physical.text), ("bridges", toString bridges)])
  | mergedClass cls versions members => (.debug, "Merged class",
    [("class", cls.text), ("versions", toString versions), ("members", toString members)])
  | splitWarning warning => (.warn, "Split warning", [("warning", warning)])
  | absentInTarget cls target => (.debug, "Class absent in target",
    [("class", cls.text), ("target", target.id)])
  | removedByDirective cls target => (.debug, "Class removed by directive",
    [("class", cls.text), ("target", target.id)])
  | unusedStub cls target => (.debug, "Class stub not used by target",
    [("class", cls.text), ("target", target.id)])
  | projectedClass cls target members redirects typeRemaps => (.debug, "Projected class",
    [("class", cls.text), ("target", target.id), ("members", toString members),
      ("redirects", toString redirects), ("type_remaps", toString typeRemaps)])
  | conflictingRedirects site => (.warn, "Conflicting redirects, keeping the first",
    [("site", site)])
  | conflictingStubs cls kept dropped => (.warn, "Conflicting class stubs, keeping the first",
    [("class", cls.text), ("kept", kept.text), ("dropped", dropped.text)])
  | linkedClass cls target changed => (.debug, "Linked class",
    [("class", cls.text), ("target", target.id), ("changed", toString changed)])
  | groupFailed cls error => (.error, "Group failed", [("class", cls.text), ("error", error)])
  | listedVersion version classes => (.debug, "Listed version",
    [("version", version.id), ("classes", toString classes)])
  | mergeStarted classes versions knownSupers => (.info, "Starting merge",
    [("classes", toString classes), ("versions", toString versions),
      ("known_supers", toString knownSupers)])
  | wroteMerged cls members => (.debug, "Wrote merged class",
    [("class", cls.text), ("members", toString members)])
  | loadFailed cls error => (.error, "Failed to load class",
    [("class", cls.text), ("error", error)])
  | splitStarted classes target => (.info, "Starting split",
    [("classes", toString classes), ("target", target.id)])
  | pooledRedirects redirects typeRemaps => (.debug, "Pooled call-site redirects",
    [("redirects", toString redirects), ("type_remaps", toString typeRemaps)])
  | releaseFailed path error => (.warn, "Failed to release lease",
    [("path", path), ("error", error)])
  | runFinished summary => (.info, summary, [])

/-- One line: the level, the message, and each value after its name. -/
def render (e : Event) : String :=
  let (level, message, fields) := e.parts
  " ".intercalate (level.word :: message :: fields.map fun f ↦ f.1 ++ "=" ++ f.2)

end Event

end ClassWeave
