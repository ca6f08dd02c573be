import ClassWeave.CallSite
import ClassWeave.Log

/-!
# The redirects of a split

The redirects and type remaps of all classes, pooled. Of two entries for the same call site or class
the first one stays; a second one that says something else is worth an event.
-/

namespace ClassWeave

structure RedirectTable where
  sites : OrderedMap CallSite Insn
  types : OrderedMap ClassName ClassName
  deriving DecidableEq

namespace RedirectTable

def empty : RedirectTable := ⟨.empty, .empty⟩

instance : Inhabited RedirectTable := ⟨empty⟩

def get? (t : RedirectTable) (s : CallSite) : Option Insn := t.sites.get? s

/-- The class that takes the place of another one. -/
def typeFor? (t : RedirectTable) (c : ClassName) : Option ClassName := t.types.get? c

def add (t : RedirectTable) (r : Redirect) : RedirectTable :=
  match t.get? r.site with
  | some _ => t
  | none => { t with sites := t.sites.insert r.site r.replacement }

def addType (t : RedirectTable) (r : TypeRemap) : RedirectTable :=
  match t.typeFor? r.cls with
  | some _ => t
  | none => { t with types := t.types.insert r.cls r.standIn }

def addAll (t : RedirectTable) (rs : List Redirect) : RedirectTable := rs.foldl add t

def addTypes (t : RedirectTable) (rs : List TypeRemap) : RedirectTable := rs.foldl addType t

def ofList (rs : List Redirect) : RedirectTable := empty.addAll rs

/-- The number of redirected call sites. -/
def size (t : RedirectTable) : Nat := t.sites.size

def typeCount (t : RedirectTable) : Nat := t.types.size

def isEmpty (t : RedirectTable) : Bool := t.sites.isEmpty && t.types.isEmpty

/-! ### Events -/

def addEvents (t : RedirectTable) (r : Redirect) : List Event :=
  match t.get? r.site with
  | some kept => if kept = r.replacement then [] else [.conflictingRedirects r.site.text]
  | none => []

def addTypeEvents (t : RedirectTable) (r : TypeRemap) : List Event :=
  match t.typeFor? r.cls with
  | some kept => if kept = r.standIn then [] else [.conflictingStubs r.cls kept r.standIn]
  | none => []

def addAllEvents (t : RedirectTable) : List Redirect → List Event
  | [] => []
  | r :: rest => t.addEvents r ++ (t.add r).addAllEvents rest

def addTypesEvents (t : RedirectTable) : List TypeRemap → List Event
  | [] => []
  | r :: rest => t.addTypeEvents r ++ (t.addType r).addTypesEvents rest

end RedirectTable

end ClassWeave
