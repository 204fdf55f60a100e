import Enfold.Options.Basic

/-! # Options on the command line

A command line is a list of tokens. Those that start with our mark name an option, whose value
stands in the same token after a blank or is the next token. All other tokens belong to the host
and are passed over.
-/

namespace Enfold.Options

/-- The options of the command line, and whether they take a value. -/
def tokenOptions : Assoc String (String × Bool) :=
  [("collection", "collection", true), ("collectionInterface", "collection_interface", true),
    ("instantiate", "instantiate", true), ("plural", "plural", false), ("nested", "nested", false),
    ("control", "control", true), ("summary", "summary", true)]

/-- What follows the mark in a trimmed token, if it is one of ours. -/
def marked? (token : String) : Option (List Char) :=
  let mark := (tokenMark ++ ":").toList
  if mark.isPrefixOf token.toList then some (token.toList.drop mark.length) else none

/-- Reads tokens into entries, on top of those read before. -/
def readTokens (entries : RawOptions) : List String → Except ConfigError RawOptions
  | [] => .ok entries
  | t :: rest =>
    let token := Text.trim t
    match marked? token with
    | none => readTokens entries rest
    | some body =>
      let (name, after) := Text.cutAt ' ' body
      let option := String.ofList name
      let inline := Text.trim (String.ofList (after.getD []))
      match Assoc.get? option tokenOptions with
      | none => .error (.unknownToken token)
      | some (key, false) =>
        if inline = "" then readTokens (Assoc.put key (.bool true) entries) rest
        else .error (.valueNotTaken option)
      | some (key, true) =>
        if inline = "" then
          match rest with
          | [] => .error (.valueRequired option)
          | v :: rest =>
            if v.toList.head? = some '-' then .error (.valueRequired option)
            else readTokens (Assoc.put key (.text (Text.trim v)) entries) rest
        else readTokens (Assoc.put key (.text inline) entries) rest

def parseTokens (tokens : List String) : Except ConfigError RawOptions := readTokens [] tokens

end Enfold.Options
