import Offside.Proofs.Arrangement.Blocks
import Offside.Proofs.Block.Conservation
import Offside.Proofs.Ownership.Compilation

/-!
# Order in a source

Combination neither loses nor repeats anything of a source, and names and literals come in the
order of the source.
-/

namespace Offside

open List

/-! ## Leaves in the order of their tokens -/

/-- The leaves that a node becomes stand where the token of the node stands. -/
theorem Becomes.leaves {entry : NodeId × Info} {faces : List Face} (becomes : Becomes entry faces) :
    ((faces.filter Face.isLeaf).map Face.loc).Sublist ((readTokens [entry]).map Prod.snd) := by
  cases becomes with
  | @token id info kind face isToken same =>
    have stands : info.standsForToken = true := by rw [Info.standsForToken, isToken]
    have own : (readTokens [(id, info)]).map Prod.snd = [info.loc] := by simp [readTokens, stands]
    rw [own, ← same.2]
    exact (filter_sublist).map Face.loc
  | pieces _ _ operators =>
    have none : faces.filter Face.isLeaf = [] := by
      refine filter_eq_nil_iff.mpr fun piece member => ?_
      rw [Face.isLeaf, operators piece member]
      decide
    rw [none]
    exact nil_sublist _
  | block | layout => exact nil_sublist _

theorem Reads.leaves {entries : List (NodeId × Info)} {faces : List Face}
    (reads : Reads entries faces) :
    ((faces.filter Face.isLeaf).map Face.loc).Sublist ((readTokens entries).map Prod.snd) := by
  obtain ⟨lists, all, rfl⟩ := reads
  induction all with
  | nil => exact nil_sublist _
  | @cons entry list entries lists becomes _ ih =>
    rw [flatten_cons, filter_append, map_append, ← singleton_append,
      readTokens_append, map_append]
    exact becomes.leaves.append ih

/-- The places of the nodes of a tree of blocks that stand for tokens are those of the tokens. -/
theorem Block.places_read (source : SourceId) {lines : List TokenLine}
    (fits : ∀ line ∈ lines, Scan.AllFit line.tokens) :
    ((read source lines).1.readTokens.map Prod.snd).Sublist
      ((lines.flatMap TokenLine.tokens).map Token.loc) := by
  have proper : ∀ line ∈ lines, ∀ token ∈ line.tokens, token.kind.opensBlock = true := by
    intro line member token inside
    have isFit := fits line member token inside
    cases kind : token.kind with
    | openBracket c =>
      rw [kind] at isFit
      rcases isFit with rfl | rfl | rfl <;> rfl
    | _ => rfl
  have whole : (read source lines).1.readTokens = keptTokens (lines.flatMap TokenLine.tokens) := by
    refine (BlockStack.readTokens_finish _ _).trans ?_
    change (Reader.finish _).stack.tokens = _
    rw [Reader.stack_finish, Reader.tokens_foldl_line lines _ proper]
    rfl
  rw [whole, keptTokens, map_map]
  exact filter_sublist.map Token.loc

/-! ## Whole sources -/

/-- The symbols of nodes that combination makes: calls, elements, tuples, arrays and objects. -/
def Symbol.combining : List Symbol :=
  [.builtin .call, .builtin .element, .builtin .tuple, .builtin .array, .builtin .object]

theorem Symbol.mem_combining {symbol : Symbol} (made : symbol.faceKind? = none) :
    symbol ∈ combining := by
  cases symbol with
  | builtin op => cases op <;> first | decide | cases made
  | _ => cases made

/-- What combination makes of the tree of blocks of some tokens. -/
structure Tree.Combines (tokens : List Token) (raw whole : Tree) : Prop where
  /-- Each node becomes some faces, and these are rearranged. -/
  faces : ∃ lists, List.Forall₂ Becomes raw.nodes lists ∧ Rearranges lists.flatten whole.faces
  /-- No node is there twice. -/
  distinct : whole.ids.Nodup
  /-- All other nodes are made by combination. -/
  others : ∀ entry ∈ whole.nodes,
    (∃ face ∈ whole.faces, face.number = entry.1) ∨ entry.2.symbol ∈ Symbol.combining
  /-- Names and literals come in the order of the tokens. -/
  order : ((whole.faces.filter Face.isLeaf).map Face.loc).Sublist (tokens.map Token.loc)

theorem Tree.others_of_nodes (t : Tree) : ∀ entry ∈ t.nodes,
    (∃ face ∈ t.faces, face.number = entry.1) ∨ entry.2.symbol ∈ Symbol.combining := by
  intro entry member
  cases kind : entry.2.symbol.faceKind? with
  | none => exact .inr (Symbol.mem_combining kind)
  | some shown =>
    refine .inl ⟨⟨entry.1, shown, entry.2.value, entry.2.loc⟩, ?_, rfl⟩
    refine mem_filterMap.mpr ⟨entry, member, ?_⟩
    rw [Info.face?, kind]
    rfl

namespace SourceUnit

/-- A unit whose numbers are sound has no number twice in its tree. -/
theorem Sound.nodup_ids {unit : SourceUnit} (sound : unit.Sound) : unit.tree.ids.Nodup := by
  have own : unit.tree.numbers ≤ Tree.numbersOfAll unit.trees := by
    rw [trees, Tree.numbersOfAll_cons]
    exact Multiset.le_add_right _ _
  have alone := (sound.mono own).distinct
  rwa [← Tree.coe_ids, Multiset.coe_nodup] at alone

/--
If neither reading a source nor combining it without the prelude reports anything, combination
neither loses nor repeats a token or a block and keeps names and literals in order.
-/
theorem combines_read (settings : Scan.Settings) (text : List Char) (env : Environment)
    (silent : ((read settings text).combine env false).diagnostics = #[]) :
    Tree.Combines ((Scan.source settings text).1.flatMap TokenLine.tokens)
      (read settings text).tree ((read settings text).combine env false).tree := by
  have fits := Scan.allFit_source settings text
  obtain ⟨raw, isRoot⟩ := Block.raw_read settings.source fits
  let unit := read settings text
  let start : Combination :=
    ⟨unit.numbering, .start (env.rootKeys false), unit.templates, unit.diagnostics⟩
  have plain : Combine.Plain start := Scopes.all_start fun _ _ => env.spells_rootKeys
  have onward := Combine.quietly_root raw isRoot start plain
  have none : (Combine.root unit.tree start).2.diagnostics.size = 0 := congrArg Array.size silent
  have same := Nat.le_antisymm (none.trans_le (Nat.zero_le _)) onward.grows
  obtain ⟨faces, ⟨lists, becomes, rfl⟩, moved⟩ := onward.holds same
  have order := (Reads.leaves ⟨lists, becomes, rfl⟩).trans (Block.places_read settings.source fits)
  rw [moved.leaves] at order
  exact ⟨⟨lists, becomes, moved⟩, (sound_combine settings text env false).nodup_ids,
    Tree.others_of_nodes _, order⟩

/-- An operator that is cut, an `else` on a line of its own, and brackets that are laid open. -/
def tangledText : List Char :=
  "var f = fn (a) a +-1\nif f (2, 'x')\n  f[0]\nelse\n  do\n    f (1, 2)".toList

theorem combines_read_tangledText :
    ((read ⟨0, none⟩ tangledText).combine .standard false).diagnostics = #[] ∧
      Tree.Combines ((Scan.source ⟨0, none⟩ tangledText).1.flatMap TokenLine.tokens)
        (read ⟨0, none⟩ tangledText).tree
        ((read ⟨0, none⟩ tangledText).combine .standard false).tree := by
  have silent : ((read ⟨0, none⟩ tangledText).combine .standard false).diagnostics = #[] := by
    decide +kernel
  exact ⟨silent, combines_read ⟨0, none⟩ tangledText .standard silent⟩

end SourceUnit

end Offside
