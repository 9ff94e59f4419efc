import Octet.Json.Basic

/-! # Writing JSON

Documents are written without spaces, members in their order. Quotes, backslashes and control
characters are escaped and nothing else is.
-/

namespace Octet.Json

def hex4 (n : Nat) : Text := '\\' :: 'u' :: Numeral.fixed 16 4 n

def escape (c : Char) : Text :=
  if c = '"' then ['\\', '"']
  else if c = '\\' then ['\\', '\\']
  else if c = '\x08' then ['\\', 'b']
  else if c = '\x0c' then ['\\', 'f']
  else if c = '\n' then ['\\', 'n']
  else if c = '\r' then ['\\', 'r']
  else if c = '\t' then ['\\', 't']
  else if c.val < 0x20 then hex4 c.toNat
  else [c]

def StringUnit.render : StringUnit → Text
  | .char c => escape c
  | .code n => hex4 n

def quote (units : List StringUnit) : Text := '"' :: units.flatMap StringUnit.render ++ ['"']

mutual

def render : Json → Text
  | .null => ['n', 'u', 'l', 'l']
  | .bool true => ['t', 'r', 'u', 'e']
  | .bool false => ['f', 'a', 'l', 's', 'e']
  | .number literal => literal
  | .string units => quote units
  | .array items => '[' :: renderItems items ++ [']']
  | .object members => '{' :: renderMembers members ++ ['}']

def renderItems : List Json → Text
  | [] => []
  | [v] => v.render
  | v :: w :: vs => v.render ++ ',' :: renderItems (w :: vs)

def renderMembers : List (List StringUnit × Json) → Text
  | [] => []
  | [(k, v)] => quote k ++ ':' :: v.render
  | (k, v) :: m :: ms => quote k ++ ':' :: v.render ++ ',' :: renderMembers (m :: ms)

end

end Octet.Json
