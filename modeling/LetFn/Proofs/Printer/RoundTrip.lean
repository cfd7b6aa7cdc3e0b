import LetFn.Proofs.Parser.Truncation
import LetFn.Proofs.Printer.RunOn
import LetFn.Proofs.Printer.Writable

/-!
# Reading the written form

The words of a program's written form spell the program in which statements that run together are
joined. So the written form is read back as the program itself where none do, as far as nesting
goes, and never where some do.

* `Expr.Spelled`, `Block.Spelled`: what the words of a tree derive, on their own and after an
  expression that has no semicolon.
* `Expr.spelled`, `Block.spelled`: every tree that can be written is spelled so.
* `Program.exists_derives_joined`: so is the written form of a program.
* `Program.parse_text`: the written form read back, against the program.
-/

namespace LetFn
open Token (Kind)
open Grammar

/-! ## Tokens by their words -/

theorem exists_of_map_word_cons {ts : List Token} {k : Kind} {x : String} {ws : List Word}
    (h : ts.map Token.word = (k, x) :: ws) :
    ∃ t us, ts = t :: us ∧ t.kind = k ∧ t.text = x ∧ us.map Token.word = ws := by
  obtain ⟨t, us, rfl, ht, hus⟩ := List.map_eq_cons_iff.1 h
  rw [Token.word, Prod.mk.injEq] at ht
  exact ⟨t, us, rfl, ht.1, ht.2, hus⟩

theorem exists_of_map_word_concat {ts : List Token} {k : Kind} {x : String} {ws : List Word}
    (h : ts.map Token.word = ws ++ [(k, x)]) :
    ∃ us t, ts = us ++ [t] ∧ us.map Token.word = ws ∧ t.kind = k := by
  obtain ⟨us, vs, rfl, hus, hvs⟩ := List.map_eq_append_iff.1 h
  obtain ⟨t, vs, rfl, ht, -, hnil⟩ := exists_of_map_word_cons hvs
  rw [List.map_eq_nil_iff.1 hnil]
  exact ⟨us, t, rfl, hus, ht⟩

theorem exists_of_map_word_inParens {ts : List Token} {ws : List Word}
    (h : ts.map Token.word = wordsInParens ws) :
    ∃ l us r, ts = l :: us ++ [r] ∧ l.kind = .leftParen ∧ us.map Token.word = ws ∧
      r.kind = .rightParen := by
  obtain ⟨l, vs, rfl, hl, -, hvs⟩ := exists_of_map_word_cons h
  obtain ⟨us, r, rfl, hus, hr⟩ := exists_of_map_word_concat hvs
  exact ⟨l, us, r, rfl, hl, hus, hr⟩

theorem exists_of_map_word_inBraces {ts : List Token} {ws : List Word}
    (h : ts.map Token.word = wordsInBraces ws) :
    ∃ l us r, ts = l :: us ++ [r] ∧ l.kind = .leftBrace ∧ us.map Token.word = ws ∧
      r.kind = .rightBrace := by
  obtain ⟨l, vs, rfl, hl, -, hvs⟩ := exists_of_map_word_cons h
  obtain ⟨us, r, rfl, hus, hr⟩ := exists_of_map_word_concat hvs
  exact ⟨l, us, r, rfl, hl, hus, hr⟩

/-! ## Operators and their brackets -/

/-- The words of an expression without the brackets that an operator brings along. -/
def Expr.bareWords : Expr → List Word
  | .unary op e => op.word :: e.words
  | .binary op l r => l.words ++ op.word :: r.words
  | e => e.words

/-- The words of a condition are in brackets, whoever brings them. -/
theorem Expr.test_words (t : Expr) :
    (if t.isOperator then t.words else wordsInParens t.words) = wordsInParens t.bareWords := by
  cases t <;> rfl

theorem Grammar.Call.chain {ts : List Token} {e : Expr} (h : Call Nested ts e) (j : Nat) :
    Chain Nested (tiers.drop j) ts e := by
  have hs : Strong Nested 6 ts e := by
    rw [Strong, if_pos rfl]
    exact h
  exact hs.chain (by omega)

theorem Grammar.Call.nested {ts : List Token} {e : Expr} (h : Call Nested ts e) (j : Nat) :
    Nested (tiers.drop j) ts e := (h.chain j).nested

theorem BinaryOp.ofKind?_word (op : BinaryOp) :
    Link.ofKind? op.word.1 = some (.binary op) := by
  cases op <;> rfl

/-! ## Trees -/

/-- What the words of an expression derive: on their own, and after an expression that they call
because they start with a bracket. -/
structure Expr.Spelled (e : Expr) : Prop where
  bare : ∀ ts, ts.map Token.word = e.bareWords → Nested tiers ts e.joined
  call : ∀ ts, ts.map Token.word = e.words → Call Nested ts e.joined
  absorbed : e.opens = true → ∀ us, us.map Token.word = e.words →
    ∀ ts d, Call Nested ts d → Call Nested (ts ++ us) (d.absorb e.joined)

/-- What the words of some statements derive: on their own, and after an expression statement. -/
structure Block.Spelled (ss : Block) : Prop where
  alone : ∀ ts, ts.map Token.word = Block.words ss → Statements Nested ts (Block.joined ss)
  after : ∀ us, us.map Token.word = Block.words ss → ∀ ts e, Call Nested ts e →
    Statements Nested (ts ++ us) (Stmt.joinTo (.expr e) (Block.joined ss))

/-- The words of arguments derive them. -/
def Expr.AllSpelled (es : List Expr) : Prop :=
  ∀ ts, ts.map Token.word = Expr.wordsAll es →
    Grammar.Separated (Nested tiers) ts (Expr.joinedAll es)

theorem Expr.Spelled.of_call {e : Expr} (hopens : e.opens = false)
    (h : ∀ ts, ts.map Token.word = e.words → Call Nested ts e.joined) : e.Spelled where
  bare := by
    have hw : e.bareWords = e.words := by
      cases e with
      | unary | binary => cases hopens
      | _ => rfl
    intro ts hts
    rw [hw] at hts
    exact (h ts hts).nested 0
  call := h
  absorbed ho := by
    rw [hopens] at ho
    cases ho

theorem Expr.Spelled.of_bare {e : Expr} (hop : e.isOperator = true)
    (h : ∀ ts, ts.map Token.word = e.bareWords → Nested tiers ts e.joined) : e.Spelled where
  bare := h
  call := by
    have hw : e.words = wordsInParens e.bareWords := by
      cases e <;> first | rfl | cases hop
    intro ts hts
    rw [hw] at hts
    obtain ⟨l, us, r, rfl, hl, hus, hr⟩ := exists_of_map_word_inParens hts
    exact .primary (.group hl (h us hus) hr)
  absorbed := by
    have hw : e.words = wordsInParens e.bareWords := by
      cases e <;> first | rfl | cases hop
    intro _ us hus ts d hd
    rw [hw] at hus
    obtain ⟨l, vs, r, rfl, hl, hvs, hr⟩ := exists_of_map_word_inParens hus
    have habsorb : d.absorb e.joined = .call d [e.joined] := by
      cases e <;> first | rfl | cases hop
    rw [habsorb, List.cons_append]
    exact List.append_assoc ts (l :: vs) [r] ▸ .call hd hl (.one (h vs hvs)) hr

theorem Grammar.separated_param_of_words : ∀ (xs : List String) (ts : List Token),
    ts.map Token.word = nameWords xs → Grammar.Separated Grammar.Param ts xs
  | [], ts, h => by
    rw [List.map_eq_nil_iff.1 h]
    exact .nil
  | [x], ts, h => by
    obtain ⟨t, us, rfl, hk, hx, hus⟩ := exists_of_map_word_cons h
    rw [List.map_eq_nil_iff.1 hus]
    exact .one ⟨t, rfl, hk, hx⟩
  | x :: y :: xs, ts, h => by
    obtain ⟨t, us, rfl, hk, hx, hus⟩ := exists_of_map_word_cons h
    obtain ⟨c, vs, rfl, hc, -, hvs⟩ := exists_of_map_word_cons hus
    have hone : Grammar.Param [t] x := ⟨t, rfl, hk, hx⟩
    exact .cons hone hc (separated_param_of_words (y :: xs) vs hvs)

theorem Block.Spelled.inBraces {b : Block} (h : Block.Spelled b) {ts : List Token}
    (hts : ts.map Token.word = wordsInBraces (Block.words b)) :
    InBraces Nested ts (Block.joined b) := by
  obtain ⟨l, us, r, rfl, hl, hus, hr⟩ := exists_of_map_word_inBraces hts
  exact .mk hl (h.alone us hus) hr

/-- Only an expression that starts with a bracket carries on the one before it. -/
theorem Expr.exists_words (e : Expr) :
    ∃ k x ws, e.words = (k, x) :: ws ∧ (e.opens = false → k ∉ carriesOn) := by
  cases e with
  | call f as =>
    obtain ⟨k, x, ws, hf, hk⟩ := f.exists_words
    exact ⟨k, x, ws ++ wordsInParens (Expr.wordsAll as), by rw [Expr.words, hf]; rfl, hk⟩
  | bool b => cases b <;> exact ⟨_, _, _, rfl, fun _ => by decide⟩
  | cond t y no => cases no <;> exact ⟨.ifWord, _, _, rfl, fun _ => by decide⟩
  | name x => exact ⟨.name, _, _, rfl, fun _ => by decide⟩
  | int n => exact ⟨.int, _, _, rfl, fun _ => by decide⟩
  | str s => exact ⟨.string, _, _, rfl, fun _ => by decide⟩
  | fn xs b => exact ⟨.fnWord, _, _, rfl, fun _ => by decide⟩
  | unary op e => exact ⟨.leftParen, _, _, rfl, fun h => by cases h⟩
  | binary op l r => exact ⟨.leftParen, _, _, rfl, fun h => by cases h⟩

/-- A statement with a semicolon and a keyword in front runs into nothing. -/
theorem Block.Spelled.of_closed {s : Stmt} {ss : Block}
    (hjoin : ∀ e, Stmt.joinTo (.expr e) (Block.joined (s :: ss)) = .expr e :: Block.joined (s :: ss))
    (hword : ∃ w ws, Block.words (s :: ss) = w :: ws ∧ w.1 ∉ carriesOn)
    (halone : ∀ ts, ts.map Token.word = Block.words (s :: ss) →
      Statements Nested ts (Block.joined (s :: ss))) : Block.Spelled (s :: ss) where
  alone := halone
  after us hus ts e he := by
    rw [hjoin]
    refine .open (.expr (he.nested 0)) (fun t ht => ?_) (halone us hus)
    obtain ⟨w, ws, hw, hk⟩ := hword
    obtain ⟨vs, rfl⟩ := List.head?_eq_some_iff.1 ht
    rw [hw] at hus
    rw [← (List.cons.inj hus).1] at hk
    exact hk

mutual

theorem Expr.spelled : ∀ e : Expr, e.isWritable = true → e.Spelled
  | .name x, _ => .of_call rfl fun ts hts => by
    obtain ⟨t, us, rfl, hk, rfl, hus⟩ := exists_of_map_word_cons hts
    rw [List.map_eq_nil_iff.1 hus]
    exact .primary (.name hk)
  | .int n, h => .of_call rfl fun ts hts => by
    have hn : 0 ≤ n.toInt := of_decide_eq_true h
    obtain ⟨t, us, rfl, hk, hx, hus⟩ := exists_of_map_word_cons hts
    rw [List.map_eq_nil_iff.1 hus]
    have hd : decimal t.text = n.toInt.toNat := by
      rw [decimal, hx, toList_toString_of_nonneg hn, Nat.ofDigitChars_ten_toDigits]
    have hlt : n.toInt < 2 ^ 63 := n.toInt_lt
    have hof : Int64.ofNat (decimal t.text) = n := by
      rw [hd, ← Int64.toInt_inj, Int64.toInt_ofNat_of_lt (by omega), Int.toNat_of_nonneg hn]
    have hp : Primary Nested [t] (.int (Int64.ofNat (decimal t.text))) := .int hk (by omega)
    rw [hof] at hp
    exact .primary hp
  | .bool true, _ => .of_call rfl fun ts hts => by
    obtain ⟨t, us, rfl, hk, -, hus⟩ := exists_of_map_word_cons hts
    rw [List.map_eq_nil_iff.1 hus]
    exact .primary (.yes hk)
  | .bool false, _ => .of_call rfl fun ts hts => by
    obtain ⟨t, us, rfl, hk, -, hus⟩ := exists_of_map_word_cons hts
    rw [List.map_eq_nil_iff.1 hus]
    exact .primary (.no hk)
  | .str s, _ => .of_call rfl fun ts hts => by
    obtain ⟨t, us, rfl, hk, rfl, hus⟩ := exists_of_map_word_cons hts
    rw [List.map_eq_nil_iff.1 hus]
    exact .primary (.str hk)
  | .unary op e, h => .of_bare rfl fun ts hts => by
    obtain ⟨t, us, rfl, hk, -, hus⟩ := exists_of_map_word_cons hts
    have he := ((e.spelled h).call us hus).nested 4
    have hu : Unary Nested (t :: us) (.unary op e.joined) := by
      cases op with
      | not => exact .not hk he
      | negate => exact .negate hk he
    exact (Chain.widen (k := 4) (Nat.zero_le 4) (.unary hu)).nested
  | .binary op l r, h => .of_bare rfl fun ts hts => by
    rw [Expr.isWritable, Bool.and_eq_true] at h
    obtain ⟨us, vs, rfl, hus, hvs⟩ := List.map_eq_append_iff.1 hts
    obtain ⟨t, vs, rfl, hk, -, hvs⟩ :=
      exists_of_map_word_cons (k := op.word.1) (x := op.word.2) hvs
    obtain ⟨tier, htier, hop⟩ := exists_tier_of_ofKind? op.ofKind?_word
    rw [← hk] at hop
    have hl := ((l.spelled h.1).call us hus).chain (op.strength - 1)
    have hr := ((r.spelled h.2).call vs hvs).nested op.strength
    rw [htier] at hl
    have hchain := Chain.more hl hop hr
    rw [← htier] at hchain
    exact (Chain.widen (Nat.zero_le _) hchain).nested
  | .cond t y none, h => .of_call rfl fun ts hts => by
    rw [Expr.isWritable, Bool.and_eq_true] at h
    rw [Expr.words, t.test_words, List.append_nil] at hts
    obtain ⟨w, us, rfl, hw, -, hus⟩ := exists_of_map_word_cons hts
    obtain ⟨vs, ws, rfl, hvs, hws⟩ := List.map_eq_append_iff.1 hus
    obtain ⟨l, us, r, rfl, hl, hus, hr⟩ := exists_of_map_word_inParens hvs
    have hy := (Block.spelled y h.2).inBraces hws
    have hp := Primary.cond hw hl ((t.spelled h.1).bare us hus) hr hy
    rw [Expr.joined]
    simpa using Call.primary hp
  | .cond t y (some n), h => .of_call rfl fun ts hts => by
    rw [Expr.isWritable, Bool.and_eq_true, Bool.and_eq_true] at h
    rw [Expr.words, t.test_words] at hts
    obtain ⟨w, us, rfl, hw, -, hus⟩ := exists_of_map_word_cons hts
    obtain ⟨vs, ws, rfl, hvs, hws⟩ := List.map_eq_append_iff.1 hus
    obtain ⟨l, qs, r, rfl, hl, hqs, hr⟩ := exists_of_map_word_inParens hvs
    obtain ⟨ys, ns, rfl, hys, hns⟩ := List.map_eq_append_iff.1 hws
    obtain ⟨o, ns, rfl, ho, -, hns⟩ := exists_of_map_word_cons hns
    have hy := (Block.spelled y h.1.2).inBraces hys
    have hn := (Block.spelled n h.2).inBraces hns
    have hp := Primary.condElse hw hl ((t.spelled h.1.1).bare qs hqs) hr hy ho hn
    rw [Expr.joined]
    simpa using Call.primary hp
  | .fn xs b, h => .of_call rfl fun ts hts => by
    rw [Expr.isWritable, Bool.and_eq_true] at h
    obtain ⟨w, us, rfl, hw, -, hus⟩ := exists_of_map_word_cons hts
    obtain ⟨vs, ws, rfl, hvs, hws⟩ := List.map_eq_append_iff.1 hus
    obtain ⟨l, us, r, rfl, hl, hus, hr⟩ := exists_of_map_word_inParens hvs
    have hb := (Block.spelled b h.2).inBraces hws
    have hp := Primary.fn hw hl (separated_param_of_words xs us hus) hr hb
    rw [Expr.joined]
    simpa using Call.primary hp
  | .call f as, h => by
    rw [Expr.isWritable, Bool.and_eq_true] at h
    have hf := f.spelled h.1
    have has := Expr.allSpelled as h.2
    have hcall : ∀ ts, ts.map Token.word = (Expr.call f as).words →
        Call Nested ts (Expr.call f as).joined := by
      intro ts hts
      obtain ⟨us, vs, rfl, hus, hvs⟩ := List.map_eq_append_iff.1 hts
      obtain ⟨l, vs, r, rfl, hl, hvs, hr⟩ := exists_of_map_word_inParens hvs
      exact List.append_assoc us (l :: vs) [r] ▸ .call (hf.call us hus) hl (has vs hvs) hr
    refine ⟨fun ts hts => (hcall ts hts).nested 0, hcall, fun ho us hus ts d hd => ?_⟩
    obtain ⟨vs, ws, rfl, hvs, hws⟩ := List.map_eq_append_iff.1 hus
    obtain ⟨l, ws, r, rfl, hl, hws, hr⟩ := exists_of_map_word_inParens hws
    have hg := hf.absorbed ho vs hvs ts d hd
    have hc := Call.call hg hl (has ws hws) hr
    simpa [Expr.joined, Expr.absorb] using hc
termination_by structural e => e

theorem Expr.allSpelled : ∀ es : List Expr, Expr.areWritable es = true → Expr.AllSpelled es
  | [], _, ts, hts => by
    rw [List.map_eq_nil_iff.1 hts]
    exact .nil
  | [e], h, ts, hts => by
    rw [Expr.areWritable, Bool.and_eq_true] at h
    exact .one (((e.spelled h.1).call ts hts).nested 0)
  | e :: f :: es, h, ts, hts => by
    rw [Expr.areWritable, Bool.and_eq_true] at h
    rw [Expr.wordsAll] at hts
    · obtain ⟨us, vs, rfl, hus, hvs⟩ := List.map_eq_append_iff.1 hts
      obtain ⟨c, vs, rfl, hc, -, hvs⟩ := exists_of_map_word_cons hvs
      exact .cons (((e.spelled h.1).call us hus).nested 0) hc (Expr.allSpelled (f :: es) h.2 vs hvs)
    · exact List.cons_ne_nil f es

theorem Block.spelled : ∀ ss : List Stmt, Block.isWritable ss = true → Block.Spelled ss
  | [], _ => by
    refine ⟨fun ts hts => ?_, fun us hus ts e he => ?_⟩
    · rw [List.map_eq_nil_iff.1 hts]
      exact .nil
    · rw [List.map_eq_nil_iff.1 hus]
      exact .open (.expr (he.nested 0)) (by simp) .nil
  | .bind x e :: ss, h => by
    rw [Block.isWritable, Bool.and_eq_true, Stmt.isWritable, Bool.and_eq_true] at h
    have hss := Block.spelled ss h.2
    refine .of_closed (fun e => rfl) ⟨_, _, rfl, by decide⟩ fun us hus => ?_
    obtain ⟨vs, ws, rfl, hvs, hws⟩ := List.map_eq_append_iff.1 hus
    obtain ⟨w, vs, rfl, hw, -, hvs⟩ := exists_of_map_word_cons hvs
    obtain ⟨n, as, rfl, hn, rfl, has⟩ := exists_of_map_word_cons hvs
    obtain ⟨a, bs, rfl, ha, -, hbs⟩ := exists_of_map_word_cons has
    obtain ⟨es, semi, rfl, hes, hsemi⟩ := exists_of_map_word_concat hbs
    have he := ((e.spelled h.1.2).call es hes).nested 0
    have hs := Statements.closed (.bind hw hn ha he) hsemi (hss.alone ws hws)
    simpa [Block.joined, Stmt.joined, Stmt.joinTo] using hs
  | .ret e :: ss, h => by
    rw [Block.isWritable, Bool.and_eq_true] at h
    have hss := Block.spelled ss h.2
    refine .of_closed (fun e => rfl) ⟨_, _, rfl, by decide⟩ fun us hus => ?_
    obtain ⟨vs, ws, rfl, hvs, hws⟩ := List.map_eq_append_iff.1 hus
    obtain ⟨w, as, rfl, hw, -, has⟩ := exists_of_map_word_cons hvs
    obtain ⟨es, semi, rfl, hes, hsemi⟩ := exists_of_map_word_concat has
    have he := ((e.spelled h.1).call es hes).nested 0
    have hs := Statements.closed (.ret hw he) hsemi (hss.alone ws hws)
    simpa [Block.joined, Stmt.joined, Stmt.joinTo] using hs
  | .expr e :: ss, h => by
    rw [Block.isWritable, Bool.and_eq_true] at h
    have he := e.spelled h.1
    have hss := Block.spelled ss h.2
    have halone : ∀ ts, ts.map Token.word = Block.words (.expr e :: ss) →
        Statements Nested ts (Block.joined (.expr e :: ss)) := by
      intro ts hts
      obtain ⟨us, vs, rfl, hus, hvs⟩ := List.map_eq_append_iff.1 hts
      exact hss.after vs hvs us e.joined (he.call us hus)
    refine ⟨halone, fun us hus ts d hd => ?_⟩
    rw [Block.joined, Stmt.joined]
    cases ho : e.opens with
    | true =>
      obtain ⟨vs, ws, rfl, hvs, hws⟩ := List.map_eq_append_iff.1 hus
      have hc := he.absorbed ho vs hvs ts d hd
      rw [Stmt.joinTo_joinTo (e.opens_joined.trans ho), ← List.append_assoc]
      exact hss.after ws hws (ts ++ vs) _ hc
    | false =>
      obtain ⟨k, x, ws, hw, hk⟩ := e.exists_words
      have hhead : ∀ t ∈ us.head?, t.kind ∉ carriesOn := by
        intro t ht
        obtain ⟨vs, rfl⟩ := List.head?_eq_some_iff.1 ht
        rw [Block.words, Stmt.words, hw] at hus
        obtain ⟨t', vs', heq, hk', -⟩ := exists_of_map_word_cons hus
        rw [(List.cons.inj heq).1, hk']
        exact hk ho
      rw [Stmt.joinTo_of_not_opens (e.opens_joined.trans ho)]
      exact .open (.expr (hd.nested 0)) hhead (halone us hus)

end

/-! ## Programs -/

/-- The words of a program's written form spell the program with its run-on statements joined. -/
theorem Program.exists_derives_joined {p : Program} (h : p.IsWritable) :
    ∃ n, Derives n (Lexer.ofText p.text).tokens.dropLast p.joined := by
  have hwords : (Lexer.ofText p.text).tokens.map Token.word =
      Block.words p.statements ++ [(.eof, "")] := by
    have hw := Block.words_write p.statements (k := []) h (by simp [Apart])
    rw [Lexer.words_nil] at hw
    rw [Lexer.tokens_map_word, Program.text, String.toList_ofList, hw]
  have hdrop : (Lexer.ofText p.text).tokens.dropLast.map Token.word = Block.words p.statements := by
    rw [List.map_dropLast, hwords, List.dropLast_concat]
  exact ((Block.spelled p.statements h).alone _ hdrop).exists_depth

/-- Every program that is read can be written. A program that can be written is read back from its
written form if no list of its statements runs on, unless it is nested too deep, and never if one
does. -/
theorem Program.parse_text :
    (∀ text p, parse text = .ok p → p.IsWritable) ∧
      ∀ p : Program, p.IsWritable →
        ((∀ b ∈ p.lists, ¬ RunsOn b) → parse p.text = .ok p ∨
          ∃ e es, parse p.text = .error (e :: es) ∧ e.fault = .tooDeep nestingLimit) ∧
        ((∃ b ∈ p.lists, RunsOn b) → parse p.text ≠ .ok p) := by
  refine ⟨fun _ _ => isWritable_of_parse, fun p hp => ⟨fun hno => ?_, fun hrun hread => ?_⟩⟩
  · obtain ⟨n, hd⟩ := exists_derives_joined hp
    rw [(joined_eq_iff hp).2 hno] at hd
    exact ofWords_of_derives hd _
  · obtain ⟨n, hd⟩ := exists_derives_joined hp
    rw [parse, ofWords_eq_ok_iff] at hread
    have hself : Derives nestingLimit (Lexer.ofText p.text).tokens.dropLast p :=
      row_iff_statements.1 hread
    obtain ⟨b, hb, hrun⟩ := hrun
    exact (joined_eq_iff hp).1 (hd.unique hself) b hb hrun

/-- A text without words is the program without statements; a call is read back, and a name before
a bracket is not. -/
theorem Program.parse_text_samples :
    (parse "" = .ok ⟨[]⟩ ∧ Program.IsWritable ⟨[]⟩) ∧
      (Program.IsWritable ⟨[.expr (.call (.name "f") [.name "x"])]⟩ ∧
        (∀ b ∈ Program.lists ⟨[.expr (.call (.name "f") [.name "x"])]⟩, ¬ RunsOn b) ∧
        (parse (Program.text ⟨[.expr (.call (.name "f") [.name "x"])]⟩) =
            .ok ⟨[.expr (.call (.name "f") [.name "x"])]⟩ ∨
          ∃ e es, parse (Program.text ⟨[.expr (.call (.name "f") [.name "x"])]⟩) =
            .error (e :: es) ∧ e.fault = .tooDeep nestingLimit)) ∧
      (Program.IsWritable ⟨[.expr (.name "f"), .expr (.unary .not (.name "x"))]⟩ ∧
        (∃ b ∈ Program.lists ⟨[.expr (.name "f"), .expr (.unary .not (.name "x"))]⟩, RunsOn b) ∧
        parse (Program.text ⟨[.expr (.name "f"), .expr (.unary .not (.name "x"))]⟩) ≠
          .ok ⟨[.expr (.name "f"), .expr (.unary .not (.name "x"))]⟩) := by
  have hempty : parse "" = .ok ⟨[]⟩ := by
    have hd : (Lexer.ofText "").tokens = [⟨.eof, "", ⟨1, 1⟩⟩] :=
      (Lexer.stands_ofText "").tokens_gap nofun
    rw [parse, ofWords_eq_ok_iff, hd]
    exact .nil
  have hcall : Program.IsWritable ⟨[.expr (.call (.name "f") [.name "x"])]⟩ := by
    unfold Program.IsWritable
    decide
  have hname : Program.IsWritable ⟨[.expr (.name "f"), .expr (.unary .not (.name "x"))]⟩ := by
    unfold Program.IsWritable
    decide
  have hapart : ∀ b ∈ Program.lists ⟨[.expr (.call (.name "f") [.name "x"])]⟩, ¬ RunsOn b :=
    (joined_eq_iff hcall).1 rfl
  have hruns : ∃ b ∈ Program.lists ⟨[.expr (.name "f"), .expr (.unary .not (.name "x"))]⟩,
      RunsOn b :=
    ⟨_, List.mem_cons_self, [], .name "f", .unary .not (.name "x"), [], rfl, rfl⟩
  exact ⟨⟨hempty, parse_text.1 "" ⟨[]⟩ hempty⟩,
    ⟨hcall, hapart, (parse_text.2 _ hcall).1 hapart⟩,
    ⟨hname, hruns, (parse_text.2 _ hname).2 hruns⟩⟩

end LetFn
