import Stok.Core.Decimal

/-!
# URLs (`net/url.cpp`)
-/

namespace Stok.Net

structure Url where
  tls : Bool
  host : Bytes
  port : Nat
  /-- Path and query. -/
  target : Bytes
  /-- The host, with the port when it is not the default. -/
  hostHeader : Bytes
  deriving DecidableEq, Repr

/-- The scheme of a URL, and the text after it. -/
def parseScheme (s : Bytes) : Option (Bool × Bytes) :=
  if istartsWith s (lit "https://") then some (true, s.drop 8)
  else if istartsWith s (lit "http://") then some (false, s.drop 7)
  else none

/-- The target of what follows the scheme, without its fragment. -/
def urlTarget (s : Bytes) : Bytes :=
  let target := match s.findIdx? fun c => c == ch '/' || c == ch '?' with
    | none => [ch '/']
    | some i => if (s.drop i).head? = some (ch '?') then ch '/' :: s.drop i else s.drop i
  target.takeWhile (· != ch '#')

/-- The host and the port of an authority. -/
def hostPort (tls : Bool) (authority : Bytes) : Option (Bytes × Nat) :=
  let colon := authority.length - 1 - authority.reverse.idxOf (ch ':')
  if ch ':' ∈ authority ∧ ch ']' ∉ authority then
    match parseU32 (authority.drop (colon + 1)) with
    | some p => if p = 0 ∨ 65535 < p then none else some (authority.take colon, p.toNat)
    | none => none
  else some (authority, if tls then 443 else 80)

def parseUrl (s : Bytes) : Option Url := do
  let (tls, s) ← parseScheme (trim s)
  let authority := s.takeWhile fun c => c != ch '/' && c != ch '?'
  if authority = [] ∨ ch '@' ∈ authority then failure
  let (authority, port) ← hostPort tls authority
  let host := toLowerCopy authority
  let defaultPort := tls && port == 443 || !tls && port == 80
  return {
    tls, host, port
    target := urlTarget s
    hostHeader := if defaultPort then host else host ++ lit ":" ++ Dbl.digits port }

/-- The directory of the base's path. -/
def baseDir (target : Bytes) : Bytes :=
  let path := target.takeWhile (· != ch '?')
  if ch '/' ∈ path then path.take (path.length - path.reverse.idxOf (ch '/')) else [ch '/']

/-- A possibly relative `href` against a base. -/
def resolveHref (base : Url) (href : Bytes) : Bytes :=
  let href := trim href
  let scheme := if base.tls then lit "https:" else lit "http:"
  let origin := scheme ++ lit "//" ++ base.hostHeader
  if istartsWith href (lit "http://") || istartsWith href (lit "https://") then href
  else if (lit "//").isPrefixOf href then scheme ++ href
  else if (lit "/").isPrefixOf href then origin ++ href
  else origin ++ baseDir base.target ++ href

example : (parseUrl (lit " https://www.SEC.gov/Archives/a-index.htm#top ")).map (fun u => resolveHref u (lit "ex99.htm")) =
    some (lit "https://www.sec.gov/Archives/ex99.htm") := by
  decide +kernel

theorem urlTarget_head (s : Bytes) : (urlTarget s).head? = some (ch '/') := by
  unfold urlTarget
  cases hi : s.findIdx? fun c => c == ch '/' || c == ch '?' with
  | none => rfl
  | some i =>
    obtain ⟨hlt, hc, -⟩ := List.findIdx?_eq_some_iff_getElem.mp hi
    dsimp only
    rw [List.drop_eq_getElem_cons hlt]
    split
    · rfl
    · rename_i hne
      have hne : s[i] ≠ ch '?' := fun h => hne (congrArg some h)
      simp only [Bool.or_eq_true, beq_iff_eq] at hc
      rw [hc.resolve_right hne]
      rfl

theorem hostPort_port {tls : Bool} {authority host : Bytes} {port : Nat} (h : hostPort tls authority = some (host, port)) :
    0 < port ∧ port ≤ 65535 := by
  unfold hostPort at h
  dsimp only at h
  split at h
  · split at h
    · split at h
      · cases h
      · rename_i p hp hrange
        cases h
        have hlo : 0 ≤ p := (parseInt_bounds hp).1
        omega
    · cases h
  · cases h
    cases tls <;> decide

/-- The target of a URL that is accepted is a path, and its port is one. -/
theorem parseUrl_spec {s : Bytes} {u : Url} (h : parseUrl s = some u) :
    u.target.head? = some (ch '/') ∧ 0 < u.port ∧ u.port ≤ 65535 := by
  unfold parseUrl at h
  simp only [Option.bind_eq_bind, Option.bind_eq_some_iff] at h
  obtain ⟨⟨tls, rest⟩, -, h⟩ := h
  dsimp only at h
  split at h
  · cases h
  · simp only [Option.bind_eq_some_iff] at h
    obtain ⟨⟨host, port⟩, hport, h⟩ := h
    cases h
    exact ⟨urlTarget_head rest, hostPort_port hport⟩

end Stok.Net
