import Offside.Proofs.Scanning.Pieces

/-!
# Names of a source

Every name that scanning makes a token of is a word: it starts with a letter or an underscore and
goes on with letters, numerals and underscores. So no name of a source has a dollar sign in it,
and no operator has one.
-/

namespace Offside

open List

/--
Names of tokens are words, no operator has a dollar sign in it, and there are three opening
brackets.
-/
def TokenKind.Fits : TokenKind → Prop
  | .ident name | .virtualIdent name => Text.IsWord name.toList
  | .operator text | .hashOperator text => '$' ∉ text.toList
  | .openBracket c => c = '(' ∨ c = '[' ∨ c = '\x7b'
  | _ => True

namespace Scan

def AllFit (tokens : List Token) : Prop :=
  ∀ token ∈ tokens, token.kind.Fits

theorem fits_plainToken {lexeme : Lexeme} {behind : List Char} {kind : TokenKind}
    (shaped : lexeme.Shaped behind) (made : plainToken? lexeme = some kind) : kind.Fits := by
  unfold Lexeme.Shaped at shaped
  unfold plainToken? at made
  split at made <;> cases made <;> try trivial
  case h_2 isKind | h_4 isKind | h_5 isKind =>
    rw [isKind] at shaped
    rw [TokenKind.Fits, String.toList_ofList]
    exact shaped
  case h_3 isVirtual spelled =>
    rw [isVirtual, spelled] at shaped
    rw [TokenKind.Fits, String.toList_ofList]
    exact shaped
  case h_7 isBracket spelled =>
    rw [isBracket] at shaped
    exact shaped _ (spelled ▸ mem_cons_self)

theorem fits_tokenOf {lexeme : Lexeme} {behind : List Char} {kind : TokenKind} {width : Nat}
    (shaped : lexeme.Shaped behind) (made : tokenOf? lexeme = some (kind, width)) : kind.Fits := by
  unfold tokenOf? at made
  split at made
  case h_1 | h_2 =>
    cases made
    trivial
  case h_3 =>
    obtain ⟨_, isPlain, same⟩ := Option.map_eq_some_iff.mp made
    cases same
    exact fits_plainToken shaped isPlain

/-- The names of a source are words. -/
theorem allFit_source (settings : Settings) (text : List Char) :
    ∀ line ∈ (source settings text).1, AllFit line.tokens := by
  obtain ⟨pieces, -, isTokens, sound, -⟩ := exists_pieces settings text
  intro line member token inside
  have listed : token ∈ tokensOf pieces := isTokens ▸ mem_flatMap.mpr ⟨line, member, inside⟩
  obtain ⟨_, c, rest, -, made⟩ := sound.isLexeme listed
  exact fits_tokenOf (Lexeme.cutOff_next c rest).shaped made

end Scan

end Offside
