import Handheld.Json.Scalar
import Handheld.Json.Skip

/-!
# Records

A record is written as an object, whose members come in any order and may hold
unknown keys, or as a list of its fields in order, which may stop early. No
field may be given twice.
-/

namespace Handheld.Json

structure Field (σ : Type) where
  name : String
  read : σ → Reader σ

namespace Field

def ofReader {σ α : Type} (name : String) (reader : Reader α) (put : σ → α → σ) : Field σ where
  name := name
  read s cs := do
    let (a, cs) ← reader cs
    pure (put s a, cs)

def ofKind {σ α : Type} (name : String) (kind : Scalar → Option α) (put : σ → α → σ) : Field σ :=
  ofReader name (readKind kind) put

end Field

/-- A record that was read, and the names of the fields it was given. -/
structure Given (σ : Type) where
  record : σ
  names : List String := []

def Given.read {σ : Type} (g : Given σ) (f : Field σ) : Reader (Given σ) := fun cs => do
  let (record, cs) ← f.read g.record cs
  pure (⟨record, f.name :: g.names⟩, cs)

def readKey : Reader String
  | [] => .error .truncated
  | '"' :: rest => readText none [] rest
  | _ => .error .malformed

def readItems {σ : Type} (first : Bool) : List (Field σ) → Given σ → Reader (Given σ)
  | [], g, cs =>
    match dropBlanks cs with
    | [] => .error .truncated
    | ']' :: rest => .ok (g, rest)
    | _ => .error .malformed
  | f :: fs, g, cs =>
    match dropBlanks cs with
    | [] => .error .truncated
    | ']' :: rest => .ok (g, rest)
    | c :: rest => do
      if first then
        let (g, cs) ← g.read f (c :: rest)
        readItems false fs g cs
      else if c = ',' then
        match dropBlanks rest with
        | ']' :: _ => .error .malformed
        | rest =>
          let (g, cs) ← g.read f rest
          readItems false fs g cs
      else .error .malformed

/-- Reads the rest of the members of an object, at most the given number. -/
def readMembers {σ : Type} (fields : List (Field σ)) :
    Nat → Bool → Given σ → Reader (Given σ)
  | 0, _, _, _ => .error .truncated
  | n + 1, first, g, cs =>
    match dropBlanks cs with
    | [] => .error .truncated
    | '\x7d' :: rest => .ok (g, rest)
    | c :: rest => do
      let cs ← if first then pure (c :: rest)
        else if c = ',' then pure (dropBlanks rest)
        else .error .malformed
      let (key, cs) ← readKey cs
      match fields.find? (·.name = key) with
      | none =>
        let cs ← skipColon cs
        let cs ← skipValue cs
        readMembers fields n false g cs
      | some f =>
        if g.names.contains key then .error .mismatched
        else
          let cs ← skipColon cs
          let (g, cs) ← g.read f cs
          readMembers fields n false g cs

/-- Reads a record, after blanks, into one that has the values of the fields
that are not given. -/
def readRecord {σ : Type} (fields : List (Field σ)) (blank : σ) : Reader (Given σ) := fun cs =>
  match dropBlanks cs with
  | '[' :: rest => readItems true fields ⟨blank, []⟩ rest
  | '\x7b' :: rest => readMembers fields (rest.length + 1) true ⟨blank, []⟩ rest
  | rest => do
    let _ ← readScalar rest
    .error .mismatched

def readComplete {σ : Type} (fields : List (Field σ)) (blank : σ) : Reader σ := fun cs => do
  let (g, cs) ← readRecord fields blank cs
  if fields.all fun f => g.names.contains f.name then pure (g.record, cs)
  else .error .mismatched

def readAll {α : Type} (reader : Reader α) (text : String) : Except Problem α := do
  let (a, cs) ← reader text.toList
  match dropBlanks cs with
  | [] => pure a
  | _ => .error .malformed

end Handheld.Json
