import Mathlib
import Onevcs.Rules.Policy

/-!
# Origins and the identities they spell

`store::normalize`, which takes every spelling of one origin to one identity key, and
`gh::slug`, which reads the repository GitHub would be asked about off such a key. Text
is worked on as its list of characters.
-/

namespace Onevcs.Store

open Rules (Normalized)

/-- `char::is_whitespace`: Unicode's `White_Space`. -/
def isWhitespace (c : Char) : Bool :=
  let code := c.toNat
  (9 ≤ code && code ≤ 13) || (0x2000 ≤ code && code ≤ 0x200A) ||
    [0x20, 0x85, 0xA0, 0x1680, 0x2028, 0x2029, 0x202F, 0x205F, 0x3000].contains code

def trim (text : List Char) : List Char :=
  (text.dropWhile isWhitespace).rdropWhile isWhitespace

def stripPrefix (start text : List Char) : Option (List Char) :=
  if start.isPrefixOf text then some (text.drop start.length) else none

/-- `str::split_once`, at a character. -/
def splitOnce (separator : Char) (text : List Char) : Option (List Char × List Char) :=
  if separator ∈ text then
    some (text.takeWhile (· != separator), (text.dropWhile (· != separator)).tail)
  else none

/-- Take off every `tig.` a reversed text starts with. -/
@[grind] def trimGitReversed : List Char → List Char
  | 't' :: 'i' :: 'g' :: '.' :: rest => trimGitReversed rest
  | rest => rest

/-- `trim_end_matches(".git")`. -/
def trimGit (text : List Char) : List Char :=
  (trimGitReversed text.reverse).reverse

/-- What an origin says after the part that says how to reach it. -/
def afterScheme (origin : List Char) : Option (List Char) :=
  (stripPrefix "https://".toList origin).or <|
  (stripPrefix "http://".toList origin).or <|
  (stripPrefix "ssh://".toList origin).or <|
    match splitOnce ':' origin with
    | none => none
    | some (before, after) =>
      -- The `git@host:owner/name` spelling, which is not a URL at all.
      if before.contains '/' || after.head? == some '/' then none
      else some (before ++ '/' :: after)

/-- `store::hosted`. -/
@[grind] def hosted (origin : List Char) : Option Normalized :=
  if !("://".toList <:+: origin : Bool) && !origin.contains ':' && origin.head? != some '/' then
    match origin.splitOn '/' with
    | [host, owner, name] =>
      if host.contains '.' && !owner.isEmpty && !name.isEmpty then
        some ⟨.ofList origin, some ⟨.ofList host, .ofList owner, .ofList name⟩⟩
      else none
    | _ => none
  else do
    let rest ← afterScheme origin
    let rest := ((splitOnce '@' rest).map Prod.snd).getD rest
    match (rest.rdropWhile (· == '/')).splitOn '/' with
    | [host, owner, name] =>
      let host := host.takeWhile (· != ':')
      let name := trimGit name
      if host.isEmpty || owner.isEmpty || name.isEmpty then none
      else
        some ⟨.ofList (host ++ '/' :: owner ++ '/' :: name),
          some ⟨.ofList host, .ofList owner, .ofList name⟩⟩
    | _ => none

/-- `store::normalize`, where `canonicalize` follows the links of a path. -/
@[grind] def normalize (canonicalize : String → Option String) (origin : String) : Normalized :=
  let trimmed := trim origin.toList
  match hosted trimmed with
  | some parts => parts
  | none =>
    let path := String.ofList ((stripPrefix "file://".toList trimmed).getD trimmed)
    ⟨.ofList (trimGit ((canonicalize path).getD path).toList), none⟩

/-- `gh::slug`: the `owner/name` an identity key spells, when it is a GitHub one. -/
def slug (identity : String) : Option String :=
  match identity.toList.splitOn '/' with
  | [host, owner, name] =>
    if host != "github.com".toList || owner.isEmpty || name.isEmpty then none
    else some (.ofList (owner ++ '/' :: name))
  | _ => none

end Onevcs.Store
