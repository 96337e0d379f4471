import HamixOS.Lib.Text

namespace HamixOS.Hsh

open Lib

/-!
# The commands of the shell (`userland/core/hsh/src/parser.rs`, `lexer.rs`)

Words are parts that are still to be expanded; a `Node` is what the parser makes of a text and what the
shell runs.  `Node.source` is the text with which a child shell runs a node again.
-/

inductive Part where
  | lit (text : Text) (quoted : Bool)
  | var (name : Text) (quoted : Bool)
  | sub (src : Text) (quoted : Bool)
  | tilde (user : Text)
  deriving DecidableEq

structure Word where
  parts : List Part
  deriving DecidableEq

inductive RedirKind where
  | input
  | out
  | append
  | errOut
  | errAppend
  | errToOut
  | allOut
  deriving DecidableEq

structure Redir where
  kind : RedirKind
  target : Option Word
  deriving DecidableEq

inductive Node where
  | simple (assigns : List (Text × Word)) (words : List Word) (redirs : List Redir) (src : Text)
  | pipeline (stages : List Node) (negate : Bool)
  | and (a b : Node)
  | or (a b : Node)
  /-- The items, each with whether it stands before a `&`. -/
  | list (items : List (Node × Bool))
  | ifThen (branches : List (Node × Node)) (otherwise : Option Node) (src : Text)
  | loop (cond body : Node) (isUntil : Bool) (src : Text)
  | forIn (var : Text) (items : List Word) (body : Node) (src : Text)
  | group (body : Node) (redirs : List Redir) (src : Text)
  | function (name : Text) (body : Node)

namespace Node

def source : Node → Text
  | simple _ _ _ src => src
  | ifThen _ _ src => src
  | loop _ _ _ src => src
  | forIn _ _ _ src => src
  | group _ _ src => src
  | _ => []

end Node

end HamixOS.Hsh
