import Mathlib.Data.List.Nodup
import Mathlib.Data.List.Perm.Subperm
import ToolScript.Proofs.Grammar.Recognition
import ToolScript.Proofs.Lossless
import ToolScript.Proofs.Order

/-!
# Calls in the order of the source

An evaluation makes calls in the order of the tree. That is the order of the source, except that
a row of named expressions keeps a repeated name in its first place with its last expression. So
of two calls that are not inside each other the one that stands first in the source is made first,
in every run, exactly if in each row the calls of an entry stand before those of the later ones.
Where no row repeats a name they do.
-/

namespace ToolScript

open Lexer Grammar
open scoped List

variable {σ : Type}

namespace Position.Before

variable {p q : Position}

theorem asymm (h : p.Before q) : ¬q.Before p := by
  unfold Before at *
  omega

theorem of_ne (h : p ≠ q) : p.Before q ∨ q.Before p := by
  obtain ⟨line, column⟩ := p
  obtain ⟨line', column'⟩ := q
  have hne : ¬(line = line' ∧ column = column') := by
    rintro ⟨rfl, rfl⟩
    exact h rfl
  simp only [Before]
  omega

end Position.Before

namespace Expr

/-- The named expressions of an object or of a call. -/
def row : Expr → List (String × Expr)
  | .tool _ _ args => args
  | .object _ entries => entries
  | _ => []

/-- The expressions that a node is made of, in the order in which they are evaluated. -/
def operands : Expr → List Expr
  | .literal _ _ | .ref _ _ => []
  | .binary _ _ a b | .index _ a b => [a, b]
  | .unary _ _ a | .member _ a _ => [a]
  | .apply _ _ items | .list _ items => items
  | .tool _ _ entries | .object _ entries => entries.map Prod.snd

theorem nodesItems_eq_flatMap (items : List Expr) : nodesItems items = items.flatMap nodes := by
  induction items with
  | nil => rfl
  | cons e rest ih => rw [nodesItems, ih, List.flatMap_cons]

theorem nodesEntries_eq_flatMap (entries : List (String × Expr)) :
    nodesEntries entries = entries.flatMap fun entry => entry.2.nodes := by
  induction entries with
  | nil => rfl
  | cons entry rest ih => rw [nodesEntries, ih, List.flatMap_cons]

/-- A node comes behind all nodes of its operands. -/
theorem nodes_eq (e : Expr) : e.nodes = e.operands.flatMap nodes ++ [e] := by
  cases e with
  | literal | ref => rfl
  | binary | index | unary | member => simp [nodes, operands]
  | apply | list => rw [nodes, operands, nodesItems_eq_flatMap]
  | tool | object => rw [nodes, operands, nodesEntries_eq_flatMap, List.flatMap_map]

theorem operand_sublist {a e : Expr} (h : a ∈ e.operands) :
    a.nodes <+ e.operands.flatMap nodes := by
  rw [List.flatMap_def]
  exact List.sublist_flatten_of_mem (List.mem_map_of_mem h)

theorem length_operand_lt {a e : Expr} (h : a ∈ e.operands) :
    a.nodes.length < e.nodes.length := by
  rw [nodes_eq e, List.length_append]
  exact Nat.lt_succ_of_le (operand_sublist h).length_le

/-- What holds of an expression whenever it holds of its operands holds of all expressions. -/
theorem operandRec {P : Expr → Prop} (h : ∀ e, (∀ a ∈ e.operands, P a) → P e) (e : Expr) : P e :=
  h e fun a _ => operandRec h a
termination_by e.nodes.length
decreasing_by exact length_operand_lt ‹_›

theorem mem_nodes_iff {node e : Expr} :
    node ∈ e.nodes ↔ node = e ∨ ∃ a ∈ e.operands, node ∈ a.nodes := by
  rw [nodes_eq, List.mem_append, List.mem_flatMap, List.mem_singleton, or_comm]

/-- The nodes inside a node come in their order. -/
theorem nodes_sublist {node e : Expr} (h : node ∈ e.nodes) : node.nodes <+ e.nodes := by
  induction e using operandRec with
  | h e ih =>
      rcases mem_nodes_iff.1 h with rfl | ⟨a, ha, hnode⟩
      · exact List.Sublist.refl _
      · rw [nodes_eq e]
        exact ((ih a ha hnode).trans (operand_sublist ha)).trans (List.sublist_append_left _ _)

/-- Whether a node calls a tool. -/
def isCall (e : Expr) : Bool :=
  e.calledTool?.isSome

/-- The calls in an expression from left to right, each behind those inside it. -/
def calls (e : Expr) : List Expr :=
  e.nodes.filter isCall

/-- All nodes of the first expression stand before those of the second. -/
def AllBefore (a b : Expr) : Prop :=
  ∀ x ∈ a.nodes, ∀ y ∈ b.nodes, x.position.Before y.position

/-- All calls in the first expression stand before those in the second. -/
def CallsBefore (a b : Expr) : Prop :=
  ∀ c ∈ a.calls, ∀ d ∈ b.calls, c.position.Before d.position

/-- In each row of named expressions the calls in an entry stand before those in the later
entries. -/
def InPlace (e : Expr) : Prop :=
  ∀ node ∈ e.nodes, node.row.Pairwise fun first second => first.2.CallsBefore second.2

end Expr

namespace Grammar

/-- The expressions of a phrase. -/
def Phrase.exprs : Phrase → List Expr
  | .chain _ e | .accessed e | .primary e => [e]
  | .items es => es
  | .entries _ es => es.map Prod.snd

/-- The positions of the nodes of a phrase. -/
def Phrase.places : Phrase → List Position
  | .chain _ e | .accessed e | .primary e => e.nodes.map Expr.position
  | .items es => (Expr.nodesItems es).map Expr.position
  | .entries _ es => (Expr.nodesEntries es).map Expr.position

theorem mem_places {p : Phrase} {e node : Expr} (he : e ∈ p.exprs) (hnode : node ∈ e.nodes) :
    node.position ∈ p.places := by
  cases p with
  | chain | accessed | primary =>
      obtain rfl := List.mem_singleton.1 he
      exact List.mem_map_of_mem hnode
  | items es =>
      rw [Phrase.places, Expr.nodesItems_eq_flatMap]
      exact List.mem_map_of_mem (List.mem_flatMap.2 ⟨e, he, hnode⟩)
  | entries q es =>
      obtain ⟨entry, hentry, rfl⟩ := List.mem_map.1 he
      rw [Phrase.places, Expr.nodesEntries_eq_flatMap]
      exact List.mem_map_of_mem (List.mem_flatMap.2 ⟨entry, hentry, hnode⟩)

/-- Repeated names lose entries, and the others stay. -/
theorem places_merged (q : Bool) (es : List (String × Expr)) :
    (Phrase.entries q (merged es)).places <+~ (Phrase.entries q es).places := by
  rw [merged_eq]
  have hnodup : (Dict.ofList es).Nodup := List.Nodup.of_map _ (Dict.unique_ofList es)
  obtain ⟨kept, hperm, hsub⟩ := hnodup.subperm fun _ => Dict.mem_of_mem_ofList
  simp only [Phrase.places, Expr.nodesEntries_eq_flatMap]
  exact ⟨_, (hperm.flatMap_right _).map _, (hsub.flatMap _).map _⟩

section Subperm

variable {α : Type} {l l' l'' : List α}

theorem subperm_concat (h : l <+~ l') (a : α) : l ++ [a] <+~ a :: l' :=
  (List.perm_append_singleton a l).subperm.trans ((List.subperm_cons a).2 h)

theorem subperm_within (h : l <+~ l') (hsub : l' <+ l'') : l <+~ l'' :=
  h.trans hsub.subperm

end Subperm

/-- Each node has the position of a token of its own. -/
theorem Derivation.places {p : Phrase} {ts : List Token} (d : Derivation p ts) :
    p.places <+~ ts.map Token.position := by
  induction d with
  | operand _ ih | tighter _ ih | primary _ ih => exact ih
  | @unary t op e ts ht d ih =>
      simpa [Phrase.places, Expr.nodes, Expr.position] using subperm_concat ih t.position
  | @binary l a b t op ts us d ht d' ih ih' =>
      simpa [Phrase.places, Expr.nodes, Expr.position] using
        ih.append (subperm_concat ih' t.position)
  | @index a b t u ts us d ht d' hu ih ih' =>
      have hinner : (Phrase.chain levels b).places <+~ (us ++ [u]).map Token.position :=
        subperm_within ih' (by simp)
      simpa [Phrase.places, Expr.nodes, Expr.position] using
        ih.append (subperm_concat hinner t.position)
  | @member a t u ts d ht hu ih =>
      have hdot : [t.position] <+~ [t, u].map Token.position := List.Sublist.subperm (by simp)
      simpa [Phrase.places, Expr.nodes, Expr.position] using ih.append hdot
  | literal | ref => exact List.Subperm.refl _
  | @now t u v ht hu hv =>
      have hword : [t.position] <+ [t, u, v].map Token.position := by simp
      exact hword.subperm
  | @apply t f u v es ts ht hu d hv ih =>
      have hinner : (Phrase.items es).places <+~ (u :: (ts ++ [v])).map Token.position :=
        subperm_within ih (by simp)
      simpa [Phrase.places, Expr.nodes, Expr.position] using subperm_concat hinner t.position
  | @tool t f u v es ts ht hf hu d hv ih =>
      have hinner : (Phrase.entries false (merged es)).places <+~
          (f :: u :: (ts ++ [v])).map Token.position :=
        subperm_within ((places_merged false es).trans ih)
          ((((List.sublist_append_left ts [v]).cons u).cons f).map _)
      simpa [Phrase.places, Expr.nodes, Expr.position] using subperm_concat hinner t.position
  | group _ _ _ ih => exact subperm_within ih (by simp)
  | @list t u es ts us ht d htail hu ih =>
      have hinner : (Phrase.items es).places <+~ (ts ++ us ++ [u]).map Token.position :=
        subperm_within ih (by simp)
      simpa [Phrase.places, Expr.nodes, Expr.position] using subperm_concat hinner t.position
  | @object t u es ts us ht d htail hu ih =>
      have hinner : (Phrase.entries true (merged es)).places <+~
          (ts ++ us ++ [u]).map Token.position :=
        subperm_within ((places_merged true es).trans ih) (by simp)
      simpa [Phrase.places, Expr.nodes, Expr.position] using subperm_concat hinner t.position
  | noItems | noEntries => exact List.Subperm.refl _
  | lastItem _ ih => simpa [Phrase.places, Expr.nodesItems] using ih
  | @moreItems e f es t ts us d ht d' ih ih' =>
      simpa [Phrase.places, Expr.nodesItems] using
        ih.append (subperm_within ih' (List.sublist_cons_self t.position _))
  | lastEntry _ _ _ ih =>
      exact subperm_within (by simpa [Phrase.places, Expr.nodesEntries] using ih) (by simp)
  | @moreEntries q t n u e f es v ts us ht hu d hv d' ih ih' =>
      have hrow := ih.append (subperm_within ih' (List.sublist_cons_self v.position _))
      exact subperm_within (by simpa [Phrase.places, Expr.nodesEntries] using hrow) (by simp)

theorem Derivation.exists_token {p : Phrase} {ts : List Token} (d : Derivation p ts)
    {e node : Expr} (he : e ∈ p.exprs) (hnode : node ∈ e.nodes) :
    ∃ t ∈ ts, t.position = node.position :=
  List.mem_map.1 (d.places.subset (mem_places he hnode))

/-- The tokens stand in the order of their positions. -/
abbrev Increasing (ts : List Token) : Prop :=
  ts.Pairwise fun s t => s.position.Before t.position

theorem allBefore_of_tokens {p q : Phrase} {ts us : List Token} (d : Derivation p ts)
    (d' : Derivation q us) (h : ∀ s ∈ ts, ∀ t ∈ us, s.position.Before t.position) {a b : Expr}
    (ha : a ∈ p.exprs) (hb : b ∈ q.exprs) : a.AllBefore b := by
  intro x hx y hy
  obtain ⟨s, hs, hsx⟩ := d.exists_token ha hx
  obtain ⟨t, ht, hty⟩ := d'.exists_token hb hy
  rw [← hsx, ← hty]
  exact h s hs t ht

/-- The expressions of a row stand in their order. -/
theorem Derivation.increasing {p : Phrase} {ts : List Token} (d : Derivation p ts)
    (h : Increasing ts) : p.exprs.Pairwise Expr.AllBefore := by
  induction d with
  | noItems | noEntries => exact List.Pairwise.nil
  | moreItems d ht d' _ ih' =>
      obtain ⟨-, htail, hacross⟩ := List.pairwise_append.1 h
      refine List.pairwise_cons.2 ⟨fun b hb => ?_, ih' (List.pairwise_cons.1 htail).2⟩
      exact allBefore_of_tokens d d' (fun s hs t ht => hacross s hs t (List.mem_cons_of_mem _ ht))
        (List.mem_singleton_self _) hb
  | moreEntries ht hu d hv d' _ ih' =>
      have hrow := (List.pairwise_cons.1 (List.pairwise_cons.1 h).2).2
      obtain ⟨-, htail, hacross⟩ := List.pairwise_append.1 hrow
      refine List.pairwise_cons.2 ⟨fun b hb => ?_, ih' (List.pairwise_cons.1 htail).2⟩
      exact allBefore_of_tokens d d' (fun s hs t ht => hacross s hs t (List.mem_cons_of_mem _ ht))
        (List.mem_singleton_self _) hb
  | operand | unary | tighter | binary | primary | index | member | literal | ref | now | apply
  | tool | group | list | object | lastItem | lastEntry => exact List.pairwise_singleton _ _

/-- No row of named expressions gives a name twice. -/
def Derivation.Unrepeated {p : Phrase} {ts : List Token} : Derivation p ts → Prop
  | .operand d | .tighter d | .primary d | .unary _ d | .member d _ _ | .apply _ _ d _
  | .group _ d _ | .list _ d _ _ | .lastItem d | .lastEntry _ _ d => d.Unrepeated
  | @tool _ _ _ _ es _ _ _ _ d _ | @object _ _ es _ _ _ d _ _ => Dict.Unique es ∧ d.Unrepeated
  | .binary d _ d' | .index d _ d' _ | .moreItems d _ d' | .moreEntries _ _ d _ d' =>
      d.Unrepeated ∧ d'.Unrepeated
  | .literal _ | .ref _ | .now _ _ _ | .noItems | .noEntries => True

/-- The operands of each node stand in their order. Of rows this is said under a condition. -/
def Laid (condition : Prop) (e : Expr) : Prop :=
  ∀ node ∈ e.nodes, node.row = [] ∨ condition → node.operands.Pairwise Expr.AllBefore

section Laid

variable {condition other : Prop} {e : Expr}

theorem Laid.of_operands (hself : e.row = [] ∨ condition → e.operands.Pairwise Expr.AllBefore)
    (h : ∀ a ∈ e.operands, Laid condition a) : Laid condition e := by
  intro node hnode
  rcases Expr.mem_nodes_iff.1 hnode with rfl | ⟨a, ha, hnode⟩
  · exact hself
  · exact h a ha node hnode

theorem Laid.mono (h : Laid condition e) (himp : other → condition) : Laid other e :=
  fun node hnode hother => h node hnode (hother.imp_right himp)

theorem laid_leaf (h : e.operands = []) : Laid condition e :=
  .of_operands (fun _ => h ▸ .nil) (by simp [h])

theorem laid_single {a : Expr} (he : e.operands = [a]) (h : Laid condition a) :
    Laid condition e :=
  .of_operands (fun _ => he ▸ List.pairwise_singleton _ _) (by simpa [he] using h)

theorem laid_pair {a b : Expr} (he : e.operands = [a, b]) (hab : a.AllBefore b)
    (ha : Laid condition a) (hb : Laid condition b) : Laid condition e :=
  .of_operands (fun _ => he ▸ List.pairwise_pair.2 hab) (by simpa [he] using ⟨ha, hb⟩)

/-- A row without a repeated name has its entries in the order of the source. -/
theorem laid_row {es : List (String × Expr)} (hrow : e.row = merged es)
    (hoperands : e.operands = (merged es).map Prod.snd)
    (hes : (es.map Prod.snd).Pairwise Expr.AllBefore)
    (h : ∀ a ∈ es.map Prod.snd, Laid condition a) :
    Laid (Dict.Unique es ∧ condition) e := by
  rw [merged_eq] at hrow hoperands
  refine .of_operands (fun hcase => ?_) fun a ha => ?_
  · rw [hoperands]
    rcases hcase with hempty | ⟨hunique, -⟩
    · rw [hrow] at hempty
      rw [hempty]
      exact .nil
    · rwa [hunique.ofList_eq]
  · rw [hoperands] at ha
    obtain ⟨entry, hentry, rfl⟩ := List.mem_map.1 ha
    exact (h entry.2 (List.mem_map_of_mem (Dict.mem_of_mem_ofList hentry))).mono And.right

end Laid

/-- Operands stand in the order of the source, in rows if no name is repeated. -/
theorem Derivation.laid {p : Phrase} {ts : List Token} (d : Derivation p ts) (h : Increasing ts) :
    ∀ e ∈ p.exprs, Laid d.Unrepeated e := by
  have hself (e : Expr) : e ∈ [e] := List.mem_singleton_self e
  have hone {e : Expr} {condition : Prop} (h : Laid condition e) : ∀ a ∈ [e], Laid condition a :=
    fun a ha => List.mem_singleton.1 ha ▸ h
  induction d with
  | operand _ ih | tighter _ ih | primary _ ih | lastItem _ ih => exact ih h
  | unary _ _ ih =>
      exact hone (laid_single rfl (ih (List.pairwise_cons.1 h).2 _ (hself _)))
  | binary d ht d' ih ih' =>
      obtain ⟨hleft, hright, hacross⟩ := List.pairwise_append.1 h
      refine hone (laid_pair rfl ?_ ((ih hleft _ (hself _)).mono And.left)
        ((ih' (List.pairwise_cons.1 hright).2 _ (hself _)).mono And.right))
      exact allBefore_of_tokens d d'
        (fun s hs t ht => hacross s hs t (List.mem_cons_of_mem _ ht)) (hself _) (hself _)
  | index d ht d' hu ih ih' =>
      obtain ⟨hleft, hright, hacross⟩ := List.pairwise_append.1 h
      have hinner := (List.pairwise_append.1 (List.pairwise_cons.1 hright).2).1
      refine hone (laid_pair rfl ?_ ((ih hleft _ (hself _)).mono And.left)
        ((ih' hinner _ (hself _)).mono And.right))
      exact allBefore_of_tokens d d'
        (fun s hs t ht => hacross s hs t (List.mem_cons_of_mem _ (List.mem_append_left _ ht)))
        (hself _) (hself _)
  | member _ _ _ ih =>
      exact hone (laid_single rfl (ih (List.pairwise_append.1 h).1 _ (hself _)))
  | literal | ref | now => exact hone (laid_leaf rfl)
  | apply _ _ d _ ih =>
      have hinner := h.sublist (((List.sublist_append_left _ _).cons _).cons _)
      exact hone (.of_operands (fun _ => d.increasing hinner) (ih hinner))
  | list _ d _ _ ih =>
      have hinner := h.sublist (((List.sublist_append_left _ _).trans
        (List.sublist_append_left _ _)).cons _)
      exact hone (.of_operands (fun _ => d.increasing hinner) (ih hinner))
  | tool _ _ _ d _ ih =>
      have hinner := h.sublist ((((List.sublist_append_left _ _).cons _).cons _).cons _)
      exact hone (laid_row rfl rfl (d.increasing hinner) (ih hinner))
  | object _ d _ _ ih =>
      have hinner := h.sublist (((List.sublist_append_left _ _).trans
        (List.sublist_append_left _ _)).cons _)
      exact hone (laid_row rfl rfl (d.increasing hinner) (ih hinner))
  | group _ _ _ ih => exact ih (h.sublist ((List.sublist_append_left _ _).cons _))
  | noItems | noEntries => nofun
  | moreItems _ _ _ ih ih' =>
      obtain ⟨hleft, hright, -⟩ := List.pairwise_append.1 h
      exact List.forall_mem_cons.2 ⟨(ih hleft _ (hself _)).mono And.left,
        fun a ha => (ih' (List.pairwise_cons.1 hright).2 a ha).mono And.right⟩
  | lastEntry _ _ _ ih =>
      exact hone (ih (List.pairwise_cons.1 (List.pairwise_cons.1 h).2).2 _ (hself _))
  | moreEntries _ _ _ _ _ ih ih' =>
      have hrow := (List.pairwise_cons.1 (List.pairwise_cons.1 h).2).2
      obtain ⟨hleft, hright, -⟩ := List.pairwise_append.1 hrow
      exact List.forall_mem_cons.2 ⟨(ih hleft _ (hself _)).mono And.left,
        fun a ha => (ih' (List.pairwise_cons.1 hright).2 a ha).mono And.right⟩

end Grammar

namespace Expr

variable {e : Expr}

theorem calls_eq (e : Expr) : e.calls = e.operands.flatMap calls ++ [e].filter isCall := by
  rw [calls, nodes_eq, List.filter_append, List.filter_flatMap]
  rfl

theorem mem_nodes_of_mem_calls {c : Expr} (h : c ∈ e.calls) : c ∈ e.nodes :=
  List.mem_of_mem_filter h

/-- The call lies inside the other one or stands before it. -/
def Precedes (c d : Expr) : Prop :=
  c ∈ d.nodes ∨ c.position.Before d.position

/-- Where the calls in the operands of each node stand in their order, all calls do. -/
theorem calls_precede (h : ∀ node ∈ e.nodes, node.operands.Pairwise CallsBefore) :
    e.calls.Pairwise Precedes := by
  induction e using operandRec with
  | h e ih =>
      have hinner {a : Expr} (ha : a ∈ e.operands) {node : Expr} (hnode : node ∈ a.nodes) :
          node ∈ e.nodes := mem_nodes_iff.2 (.inr ⟨a, ha, hnode⟩)
      rw [calls_eq]
      refine List.pairwise_append.2 ⟨List.pairwise_flatMap.2 ⟨fun a ha => ?_, ?_⟩, ?_, ?_⟩
      · exact ih a ha fun node hnode => h node (hinner ha hnode)
      · exact (h e e.mem_nodes).imp fun hab c hc d hd => .inr (hab c hc d hd)
      · exact (List.pairwise_singleton _ _).sublist List.filter_sublist
      · intro c hc d hd
        obtain ⟨a, ha, hmem⟩ := List.mem_flatMap.1 hc
        rw [List.mem_singleton.1 (List.mem_of_mem_filter hd)]
        exact .inl (hinner ha (mem_nodes_of_mem_calls hmem))

theorem operands_of_row (h : e.row ≠ []) : e.operands = e.row.map Prod.snd := by
  cases e with
  | tool | object => rfl
  | literal | ref | binary | unary | apply | list | index | member => exact absurd rfl h

theorem row_sublist (e : Expr) : (e.row.flatMap fun entry => entry.2.nodes) <+ e.nodes := by
  by_cases h : e.row = []
  · rw [h]
    exact List.nil_sublist _
  · rw [nodes_eq, operands_of_row h, List.flatMap_map]
    exact List.sublist_append_left _ _

theorem AllBefore.callsBefore {a b : Expr} (h : a.AllBefore b) : a.CallsBefore b :=
  fun c hc d hd => h c (mem_nodes_of_mem_calls hc) d (mem_nodes_of_mem_calls hd)

end Expr

section Parsed

variable {source : String} {tokens : List Token} {e : Expr}

theorem Lexer.Tokenizes.increasing (h : Tokenizes source tokens) : Increasing tokens := by
  obtain ⟨place, hsource⟩ := h
  exact (tokensFrom_increasing hsource).sublist (List.sublist_append_left _ _)

/-- No two nodes stand at the same place. -/
theorem Expr.nodup_position (d : Derivation (.chain levels e) tokens)
    (h : Increasing tokens) : (e.nodes.map Expr.position).Nodup := by
  have htokens : (tokens.map Token.position).Nodup :=
    List.pairwise_map.2 (h.imp fun hst heq => absurd (heq ▸ hst) fun h => h.asymm h)
  obtain ⟨places, hperm, hsub⟩ := d.places
  exact hperm.nodup_iff.1 (htokens.sublist hsub)

/-- Where the calls in rows are in place, all calls come in the order of the source. -/
theorem Expr.InPlace.precede (h : e.InPlace) {condition : Prop} (hlaid : Laid condition e) :
    e.calls.Pairwise Precedes := by
  refine calls_precede fun node hnode => ?_
  by_cases hrow : node.row = []
  · exact (hlaid node hnode (.inl hrow)).imp AllBefore.callsBefore
  · rw [operands_of_row hrow]
    exact List.pairwise_map.2 (h node hnode)

theorem Expr.inPlace_of_laid {condition : Prop} (hlaid : Laid condition e) (h : condition) :
    e.InPlace := by
  intro node hnode
  by_cases hrow : node.row = []
  · rw [hrow]
    exact .nil
  · have hoperands := hlaid node hnode (.inr h)
    rw [operands_of_row hrow] at hoperands
    exact (List.pairwise_map.1 hoperands).imp AllBefore.callsBefore

/-- Two members of a list are the same, or one comes before the other. -/
theorem sublist_pair_of_mem {α : Type} {a b : α} {l : List α} (ha : a ∈ l) (hb : b ∈ l) :
    a = b ∨ [a, b] <+ l ∨ [b, a] <+ l := by
  obtain ⟨before, after, rfl⟩ := List.append_of_mem ha
  rcases List.mem_append.1 hb with hmem | hmem
  · exact .inr (.inr ((List.singleton_sublist.2 hmem).append
      ((List.nil_sublist after).cons_cons a)))
  · rcases List.mem_cons.1 hmem with rfl | hmem
    · exact .inl rfl
    · exact .inr (.inl (((List.singleton_sublist.2 hmem).cons_cons a).trans
        (List.sublist_append_right _ _)))

/-- Of two calls that are not inside each other, the one that stands first comes first. -/
theorem sublist_of_precedes {calls : List Expr} (h : calls.Pairwise Expr.Precedes) {c d : Expr}
    (hc : c ∈ calls) (hd : d ∈ calls) (hcd : c ∉ d.nodes) (hdc : d ∉ c.nodes)
    (hbefore : c.position.Before d.position) : [c, d] <+ calls := by
  rcases sublist_pair_of_mem hc hd with rfl | hforth | hback
  · exact absurd c.mem_nodes hcd
  · exact hforth
  · rcases List.pairwise_iff_forall_sublist.1 h hback with hinside | hbehind
    · exact absurd hinside hdc
    · exact absurd hbehind hbefore.asymm

/-- Where the calls in some row are not in place, two calls come in the wrong order. -/
theorem Expr.misplaced_of_not_inPlace (hnodup : (e.nodes.map Expr.position).Nodup)
    (h : ¬e.InPlace) : ∃ c d, c ∉ d.nodes ∧ d ∉ c.nodes ∧ c.position.Before d.position ∧
      [d, c] <+ e.calls := by
  simp only [InPlace, List.pairwise_iff_forall_sublist, CallsBefore, not_forall] at h
  obtain ⟨node, hnode, first, second, hrow, d, hd, c, hc, hbefore⟩ := h
  have hsub : first.2.nodes ++ second.2.nodes <+ e.nodes := by
    have hpair := (hrow.flatMap fun entry => entry.2.nodes).trans (row_sublist node)
    simpa using hpair.trans (nodes_sublist hnode)
  -- the nodes of the two entries have different places, so none is in both
  have hapart := (List.pairwise_append.1 ((List.pairwise_map.1 hnodup).sublist hsub)).2.2
  have hd' := mem_nodes_of_mem_calls hd
  have hc' := mem_nodes_of_mem_calls hc
  refine ⟨c, d, fun hmem => ?_, fun hmem => ?_, ?_, ?_⟩
  · exact hapart c ((nodes_sublist hd').subset hmem) c hc' rfl
  · exact hapart d hd' d ((nodes_sublist hc').subset hmem) rfl
  · exact (Position.Before.of_ne (hapart d hd' c hc')).resolve_left hbefore
  · have hcalls := hsub.filter isCall
    rw [List.filter_append] at hcalls
    exact ((List.singleton_sublist.2 hd).append (List.singleton_sublist.2 hc)).trans hcalls

end Parsed

theorem calls_performed {host : Host σ} {scope : Scope} {nodes : List Expr} {events : List Event}
    (h : List.Forall₂ (Performs host scope) nodes events) :
    List.Forall₂ (fun node call => Performs host scope node (.called call.1 call.2))
      (nodes.filter Expr.isCall) (Event.toolCalls events) := by
  induction h with
  | nil => exact .nil
  | cons hact _ ih =>
      cases hact with
      | call hvalues => exact .cons (.call hvalues) ih
      | print => exact ih

theorem Expr.filter_isCall_acts (e : Expr) : e.acts.filter isCall = e.calls := by
  rw [acts, calls, List.filter_filter]
  congr 1
  funext node
  cases node <;> simp [isCall, isAct, calledTool?]

/-- A run makes an initial part of the calls, in their order. -/
theorem Expr.invoked_prefix (host : Host σ) (polls : Nat) (context : Context σ) (e : Expr) :
    ∃ invoked, invoked <+: e.calls ∧
      List.Forall₂ (fun node call => Performs host context.scope node (.called call.1 call.2))
        invoked (Event.toolCalls (e.run host polls context).events) := by
  obtain ⟨done, todo, -, hacts, hdone, -, -⟩ := e.follows_run host polls context
  refine ⟨done.filter isCall, ?_, calls_performed hdone⟩
  rw [← e.filter_isCall_acts, hacts, List.filter_append]
  exact List.prefix_append _ _

/-- In a run of a parsed expression the calls that are made are told apart by their places. If
the calls in all rows are in place, then of two that are not inside each other the one that
stands first in the source is made first. Otherwise there are two that every run that makes both
makes the other way round. Without a repeated name all calls are in place. -/
theorem calls_in_source_order {source : String} {e : Expr} (h : Expr.parse source = .ok e) :
    (e.nodes.map Expr.position).Nodup ∧
    (∀ {σ : Type} (host : Host σ) (polls : Nat) (context : Context σ),
      ∃ invoked, invoked <+: e.calls ∧
        List.Forall₂ (fun node call => Performs host context.scope node (.called call.1 call.2))
          invoked (Event.toolCalls (e.run host polls context).events) ∧
        (e.InPlace → ∀ c ∈ invoked, ∀ d ∈ invoked, c ∉ d.nodes → d ∉ c.nodes →
          c.position.Before d.position → [c, d] <+ invoked)) ∧
    (¬e.InPlace → ∃ c d, c ∉ d.nodes ∧ d ∉ c.nodes ∧ c.position.Before d.position ∧
      [d, c] <+ e.calls) ∧
    ∀ tokens (d : Derivation (.chain levels e) tokens), Tokenizes source tokens →
      d.Unrepeated → e.InPlace := by
  obtain ⟨tokens, htokens, d, -⟩ := Expr.parse_eq_ok h
  have hlaid {tokens : List Token} (d : Derivation (.chain levels e) tokens)
      (htokens : Tokenizes source tokens) : Laid d.Unrepeated e :=
    d.laid htokens.increasing e (List.mem_singleton_self e)
  have hnodup := Expr.nodup_position d htokens.increasing
  refine ⟨hnodup, fun host polls context => ?_, Expr.misplaced_of_not_inPlace hnodup,
    fun tokens d htokens hunrepeated => Expr.inPlace_of_laid (hlaid d htokens) hunrepeated⟩
  obtain ⟨invoked, hprefix, hmakes⟩ := e.invoked_prefix host polls context
  refine ⟨invoked, hprefix, hmakes, fun hplace c hc d' hd' hcd hdc hbefore => ?_⟩
  have hprecede := (hplace.precede (hlaid d htokens)).sublist hprefix.sublist
  exact sublist_of_precedes hprecede hc hd' hcd hdc hbefore

/-- Two entries of an object are evaluated as they stand. -/
theorem calls_in_source_order_object :
    let x : Expr := .tool ⟨1, 5⟩ "x" []
    let y : Expr := .tool ⟨1, 19⟩ "y" []
    let e : Expr := .object ⟨1, 1⟩ [("a", x), ("b", y)]
    let host : Host Unit :=
      ⟨fun _ => some ⟨none, fun _ memory => (⟨some 0, .ok .null⟩, memory)⟩, fun _ => 0⟩
    Expr.parse "\x7ba: CALL x \x7b\x7d, b: CALL y \x7b\x7d\x7d" = .ok e ∧ e.InPlace ∧
      ∃ invoked, invoked <+: e.calls ∧
        List.Forall₂ (fun node call => Performs host .empty node (.called call.1 call.2))
          invoked (Event.toolCalls (e.run host 1 ⟨.empty, (), 0⟩).events) ∧
        [x, y] <+ invoked := by
  intro x y e host
  have hparse : Expr.parse "\x7ba: CALL x \x7b\x7d, b: CALL y \x7b\x7d\x7d" = .ok e := by cbv
  have hplace : e.InPlace := by
    simp [Expr.InPlace, x, y, e, Expr.row, Expr.CallsBefore, Expr.calls, Expr.nodes,
      Expr.nodesEntries, Expr.isCall, Expr.calledTool?, Expr.position, Position.Before]
  obtain ⟨-, hruns, -, -⟩ := calls_in_source_order hparse
  obtain ⟨invoked, hprefix, hmakes, horder⟩ := hruns host 1 ⟨.empty, (), 0⟩
  -- the run records two calls, so it has made all that there are
  have hall : invoked = [x, y] := hprefix.eq_of_length hmakes.length_eq
  subst hall
  refine ⟨hparse, hplace, [x, y], hprefix, hmakes,
    horder hplace x (by simp) y (by simp) ?_ ?_ (.inr ⟨rfl, by decide⟩)⟩
  · simp [x, y, Expr.nodes, Expr.nodesEntries]
  · simp [x, y, Expr.nodes, Expr.nodesEntries]

/-- A repeated name takes its last expression to its first place, in front of a call that stands
before it in the source. -/
theorem calls_out_of_source_order :
    let source := "\x7ba: NULL, b: CALL y \x7b\x7d, a: CALL z \x7b\x7d\x7d"
    let y : Expr := .tool ⟨1, 14⟩ "y" []
    let z : Expr := .tool ⟨1, 28⟩ "z" []
    let e : Expr := .object ⟨1, 1⟩ [("a", z), ("b", y)]
    let host : Host Unit :=
      ⟨fun _ => some ⟨none, fun _ memory => (⟨some 0, .ok .null⟩, memory)⟩, fun _ => 0⟩
    Expr.parse source = .ok e ∧ y ∉ z.nodes ∧ z ∉ y.nodes ∧ y.position.Before z.position ∧
      Event.toolCalls (e.run host 1 ⟨.empty, (), 0⟩).events = [("z", []), ("y", [])] := by
  intro source y z e host
  refine ⟨by cbv, ?_, ?_, .inr ⟨rfl, by decide⟩, rfl⟩
  · simp [y, z, Expr.nodes, Expr.nodesEntries]
  · simp [y, z, Expr.nodes, Expr.nodesEntries]

end ToolScript
