/-!
# Paths

A path is a list of parts between slashes; empty parts and single dots say nothing. Parents are not
cancelled out, because where they lead depends on the files there are.
-/

namespace LoxLang

/-- A path: its leading slashes and its parts. -/
structure Path where
  root : String
  parts : List String
  deriving DecidableEq

namespace Path

/-- The parts of a path between slashes that say something. -/
def meaningful (texts : List String) : List String := texts.filter fun p => p ≠ "" ∧ p ≠ "."

/-- Reads a path. Exactly two leading slashes differ from one; more count as one. -/
def ofText (text : String) : Path :=
  let slashes := (text.toList.takeWhile (· == '/')).length
  ⟨if slashes = 0 then "" else if slashes = 2 then "//" else "/", meaningful (text.splitOn "/")⟩

/-- The text of a path. -/
def text (p : Path) : String :=
  if p.root = "" ∧ p.parts = [] then "." else p.root ++ "/".intercalate p.parts

/-- Whether a place, given by its parts from the working directory, is a directory on the way to one
of the given files. -/
def isDirectory (files : List (List String)) (place : List String) : Bool :=
  place = [] || files.any fun f => place.isPrefixOf f && place.length < f.length

/-- The place that parts lead to from a directory. Only what lies below the working directory is
known. -/
def walk (files : List (List String)) (place : List String) : List String → Option (List String)
  | [] => some place
  | part :: rest =>
    if !isDirectory files place then none
    else if part = ".." then
      if place = [] then none else walk files place.dropLast rest
    else walk files (place ++ [part]) rest

/-- What a path names among the given files. -/
def find? {α : Type} (p : Path) (files : List (String × α)) : Option α := do
  if p.root ≠ "" then none
  let files := files.map fun f => (meaningful (f.1.splitOn "/"), f.2)
  let place ← walk (files.map Prod.fst) [] p.parts
  files.lookup place

end Path

end LoxLang
