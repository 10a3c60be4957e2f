import MiniScheme.Proofs.Code.Preorder
import MiniScheme.Proofs.Expr.Source
import MiniScheme.Proofs.Token.Tiling

/-! What a source can contribute to code: names that are words, literal values, and nonnegative
lines. -/
namespace MiniScheme

/-- A name as a source can spell it. -/
def Token.IsName (name : Bytes) : Prop :=
  ∃ w : Word Token.isSubsequent, w ≠ [] ∧ name = w.spelling

def Value.isLiteral : Value → Bool
  | boolean _ | number _ | string _ => true
  | null | eof | symbol _ | char _ | bytes _ | pair .. | hollow | unknown _ => false

structure Token.IsGenuine (t : Token) : Prop where
  line : 0 ≤ t.pos.line
  name : t.kind = .identifier → Token.IsName t.literal

/-- The node may come from a source, its children aside. -/
def Expr.IsGenuine (e : Expr) : Prop :=
  0 ≤ e.pos.line ∧
    match e with
    | empty _ => True
    | static v _ => v.isLiteral
    | reference name _ | define name _ _ | call name _ _ => Token.IsName name
    | foreign .. | missing => False

def Op.IsGenuine : Op → Prop
  | push id => 0 ≤ id
  | immediate v => v.isLiteral
  | load => True
  | define name | lookup name => Token.IsName name
  | call arity => 0 ≤ arity
  | invalid _ => False

def Chunk.IsGenuine (id : Nat) (c : Chunk) : Prop :=
  ∃ (line : Nat) (ops : List Op), c = .onLine id line ops ∧ ∀ op ∈ ops, op.IsGenuine

def Chunk.AreGenuine (id : Nat) (cs : List Chunk) : Prop :=
  ∀ (i : Nat) (c : Chunk), cs[i]? = some c → c.IsGenuine (id + i)

theorem Chunk.AreGenuine.tail {id : Nat} {c : Chunk} {cs : List Chunk}
    (h : AreGenuine id (c :: cs)) : AreGenuine (id + 1) cs := by
  intro i d hd
  have hshift : id + 1 + i = id + (i + 1) := by omega
  rw [hshift]
  exact h (i + 1) d hd

theorem Lexeme.isName_literal (l : Lexeme) (h : l.kind = .identifier) : Token.IsName l.literal := by
  cases l with
  | identifier first others =>
    exact ⟨⟨first.1, Cursor.isSubsequent_of_isInitial first.2⟩ :: others, List.cons_ne_nil _ _, rfl⟩
  | opening | closing | boolean | blank | integer | string => cases h

theorem Cursor.Scans.isGenuine {pos pos' : Position} {text rest : Bytes} {ts : List Token}
    (h : Scans pos text ts pos' rest) (hpos : 0 ≤ pos.line) : ∀ t ∈ ts, t.IsGenuine := by
  induction h with
  | done =>
    intro t ht
    cases ht
  | @token pos pos' l text rest ts hl hs ih =>
    have hpast : 0 ≤ (pos.past l.spelling).line := by
      rw [Position.line_past]
      omega
    intro t ht
    rcases List.mem_cons.1 ht with rfl | ht
    · exact ⟨hpos, l.isName_literal⟩
    · exact ih hpast t ht

namespace Expr

mutual

theorem Form.isGenuine {ts : List Token} {e : Expr} (h : Form ts e)
    (hts : ∀ t ∈ ts, t.IsGenuine) : ∀ node ∈ e.nodes, node.IsGenuine := by
  cases h with
  | boolean | integer | string =>
    intro node hnode
    cases List.mem_singleton.1 hnode
    exact ⟨(hts _ List.mem_cons_self).line, rfl⟩
  | identifier ht =>
    intro node hnode
    cases List.mem_singleton.1 hnode
    exact ⟨(hts _ List.mem_cons_self).line, (hts _ List.mem_cons_self).name ht⟩
  | empty =>
    intro node hnode
    cases List.mem_singleton.1 hnode
    exact ⟨(hts _ List.mem_cons_self).line, trivial⟩
  | @define o h t c body e ho hh hd ht hb hc =>
    intro node hnode
    rcases List.mem_cons.1 hnode with rfl | hnode
    · exact ⟨(hts o (by simp)).line, (hts t (by simp)).name ht⟩
    · exact hb.isGenuine (fun u hu => hts u (by simp [hu])) node hnode
  | @call o h c args es ho hh hd ha hc =>
    intro node hnode
    rcases List.mem_cons.1 hnode with rfl | hnode
    · exact ⟨(hts o (by simp)).line, (hts h (by simp)).name hh⟩
    · exact ha.areGenuine (fun u hu => hts u (by simp [hu])) node hnode

theorem Forms.areGenuine {ts : List Token} {es : List Expr} (h : Forms ts es)
    (hts : ∀ t ∈ ts, t.IsGenuine) : ∀ node ∈ nodesAll es, node.IsGenuine := by
  cases h with
  | nil =>
    intro node hnode
    cases hnode
  | cons hf hs =>
    have he := hf.isGenuine fun t ht => hts t (List.mem_append_left _ ht)
    have hes := hs.areGenuine fun t ht => hts t (List.mem_append_right _ ht)
    exact List.forall_mem_append.2 ⟨he, hes⟩

end

theorem isGenuine_of_mem_ownCode {e : Expr} (he : e.IsGenuine) (ids : List Nat) :
    ∀ op ∈ e.ownCode ids, op.IsGenuine := by
  have hpushes : ∀ op ∈ ids.map fun (i : Nat) => Op.push i, op.IsGenuine := by
    intro op hop
    obtain ⟨i, -, rfl⟩ := List.mem_map.1 hop
    exact Int.natCast_nonneg i
  obtain ⟨-, hown⟩ := he
  cases e with
  | empty | foreign | missing =>
    intro op hop
    cases hop
  | static v pos => exact List.forall_mem_singleton.2 hown
  | reference name pos => exact List.forall_mem_cons.2 ⟨hown, List.forall_mem_singleton.2 trivial⟩
  | define name body pos =>
    exact List.forall_mem_append.2 ⟨hpushes, List.forall_mem_singleton.2 hown⟩
  | call name args pos =>
    have hcall : (Op.call args.length).IsGenuine := Int.natCast_nonneg args.length
    exact List.forall_mem_append.2
      ⟨hpushes, List.forall_mem_cons.2 ⟨hown, List.forall_mem_singleton.2 hcall⟩⟩

theorem isGenuine_chunkAt {e : Expr} (he : e.IsGenuine) (id : Nat) :
    (e.chunkAt id).IsGenuine id := by
  have hline : (e.pos.line.toNat : Int) = e.pos.line := Int.toNat_of_nonneg he.1
  have hchunk : e.chunkAt id =
      .onLine id e.pos.line.toNat (e.ownCode (places (id + 1) e.parts)) := by
    rw [hline]
    rfl
  exact ⟨_, _, hchunk, isGenuine_of_mem_ownCode he _⟩

end Expr

theorem isGenuine_of_parse {source : Bytes} {forms : List Expr} (h : parse source = .ok forms) :
    ∀ node ∈ Expr.nodesAll forms, node.IsGenuine := by
  obtain ⟨⟨ts, fault⟩, htokens⟩ : ∃ r, tokenize source = r := ⟨_, rfl⟩
  simp only [parse, htokens] at h
  cases fault with
  | some e => exact absurd h (Expr.ofTokens_fault_ne_ok _ _ _)
  | none =>
    obtain ⟨pos, rest, hs, -⟩ := tokenize_eq_iff.1 htokens
    have htokens := hs.isGenuine (Int.le_refl 0)
    exact (Expr.ofTokens_iff_forms.1 h).areGenuine fun t ht => htokens t (List.mem_filter.1 ht).1

theorem areGenuine_of_compile {source : Bytes} {forms : List Expr} {p : Program}
    (h : parse source = .ok forms) (hp : compile forms = .ok p) :
    ∃ cs : List Chunk, p.chunks = cs.map some ∧ Chunk.AreGenuine 0 cs := by
  refine ⟨(Expr.nodesAll forms).mapIdx Expr.chunkAt, congrArg Program.chunks (eq_of_compile hp), ?_⟩
  intro i c hc
  rw [List.getElem?_mapIdx] at hc
  obtain ⟨node, hnode, rfl⟩ := Option.map_eq_some_iff.1 hc
  rw [Nat.zero_add]
  exact Expr.isGenuine_chunkAt (isGenuine_of_parse h node (List.mem_of_getElem? hnode)) i

end MiniScheme
