import LetFn.Proofs.Eval.Run

/-!
# Arithmetic

What an expression of numbers, signs and the four operations comes to: the integer that it stands
for, unless one of its operations divides by zero or leaves the 64 bits. Then it comes to the fault
of the first such operation.

* `Arithmetic`: the expressions; `Arithmetic.exact` calculates them in the integers.
* `Arithmetic.Operation`: an operator on its exact operands; `Operation.DividesByZero` and
  `Operation.Fits` say what can be wrong with one.
* `Arithmetic.operations`: the operations in the order in which they are done.
* `Operation.yields_unary`, `Operation.yields_binary`: an operator on 64-bit operands fails or is
  exact.
* `Arithmetic.eval_exact_or_first_fault`: the same of a whole expression.
-/

namespace LetFn

/-! ## Expressions of numbers -/

inductive ArithmeticOp
  | add | sub | mul | div

def ArithmeticOp.binary : ArithmeticOp → BinaryOp
  | add => .add
  | sub => .sub
  | mul => .mul
  | div => .div

/-- An operation on the integers. Division drops the fraction of the quotient. -/
def ArithmeticOp.exact : ArithmeticOp → Int → Int → Int
  | add => (· + ·)
  | sub => (· - ·)
  | mul => (· * ·)
  | div => Int.tdiv

/-- Expressions of numbers, signs and operations. -/
inductive Arithmetic
  | literal (n : Int64)
  | negate (a : Arithmetic)
  | operate (op : ArithmeticOp) (a b : Arithmetic)

/-- An operator and its operands, which may have any size. -/
inductive Arithmetic.Operation
  | negation (n : Int)
  | binary (op : ArithmeticOp) (m n : Int)

namespace Arithmetic.Operation

def result : Operation → Int
  | negation n => -n
  | binary op m n => op.exact m n

def DividesByZero : Operation → Prop
  | binary .div _ n => n = 0
  | _ => False

/-- The exact result is a 64-bit integer, from `-2^63` to `2^63 - 1`. -/
def Fits (o : Operation) : Prop :=
  -0x8000000000000000 ≤ o.result ∧ o.result ≤ 0x7fffffffffffffff

instance : DecidablePred DividesByZero
  | binary .div _ n => inferInstanceAs (Decidable (n = 0))
  | binary .add _ _ | binary .sub _ _ | binary .mul _ _ | negation _ =>
    inferInstanceAs (Decidable False)

instance : DecidablePred Fits := fun o =>
  inferInstanceAs (Decidable (-0x8000000000000000 ≤ o.result ∧ o.result ≤ 0x7fffffffffffffff))

/-- What is wrong with an operation. A divisor of zero comes before the size of the result. -/
def fault? (o : Operation) : Option Fault :=
  if o.DividesByZero then some .divisionByZero else if o.Fits then none else some .overflow

theorem fault?_eq_none_iff (o : Operation) : o.fault? = none ↔ ¬ o.DividesByZero ∧ o.Fits := by
  unfold fault?
  split <;> simp_all

end Arithmetic.Operation

namespace Arithmetic

def expr : Arithmetic → Expr
  | literal n => .int n
  | negate a => .unary .negate a.expr
  | operate op a b => .binary op.binary a.expr b.expr

/-- What an expression stands for. -/
def exact : Arithmetic → Int
  | literal n => n.toInt
  | negate a => -a.exact
  | operate op a b => op.exact a.exact b.exact

/-- The operations of an expression, each behind those of its operands and these from left to
right. -/
def operations : Arithmetic → List Operation
  | literal _ => []
  | negate a => a.operations ++ [.negation a.exact]
  | operate op a b => a.operations ++ b.operations ++ [.binary op a.exact b.exact]

end Arithmetic

/-! ## One operation -/

/-- An outcome is a fault, if there is one, and otherwise the exact result. -/
def Yields (fault : Option Fault) (exact : Int) (outcome : Except Fault Value) : Prop :=
  match fault with
  | some f => outcome = .error f
  | none => ∃ n : Int64, n.toInt = exact ∧ outcome = .ok (.int n)

namespace Arithmetic.Operation

theorem yields_integer (o : Operation) (h : ¬ o.DividesByZero) :
    Yields o.fault? o.result (integer o.result) := by
  unfold fault?
  rw [if_neg h]
  by_cases hfits : o.Fits
  · have hbounds : -0x8000000000000000 ≤ o.result ∧ o.result < 0x8000000000000000 := by
      unfold Fits at hfits
      omega
    rw [if_pos hfits]
    exact ⟨_, Int64.toInt_ofInt_of_le hbounds.1 hbounds.2, if_pos hbounds⟩
  · rw [if_neg hfits]
    refine if_neg fun hbounds => hfits ?_
    unfold Fits
    omega

theorem yields_unary (n : Int64) :
    Yields (negation n.toInt).fault? (-n.toInt) (Value.unary .negate (.int n)) :=
  yields_integer (negation n.toInt) not_false

theorem yields_binary (op : ArithmeticOp) (m n : Int64) :
    Yields (binary op m.toInt n.toInt).fault? (op.exact m.toInt n.toInt)
      (Value.binary op.binary (.int m) (.int n)) := by
  cases op with
  | add | sub | mul => exact yields_integer (binary _ m.toInt n.toInt) not_false
  | div =>
    by_cases hn : n = 0
    · subst hn
      exact rfl
    · have hdiv : ¬ (binary .div m.toInt n.toInt).DividesByZero := fun hzero =>
        hn (Int64.toInt_inj.1 hzero)
      have hvalue : Value.binary .div (.int m) (.int n) = integer (m.toInt.tdiv n.toInt) :=
        if_neg hn
      exact hvalue ▸ yields_integer (binary .div m.toInt n.toInt) hdiv

end Arithmetic.Operation

/-! ## Whole expressions -/

namespace Arithmetic

/-- The fault of the first operation that has one. -/
def fault? (a : Arithmetic) : Option Fault := a.operations.findSome? Operation.fault?

theorem fault?_negate (a : Arithmetic) :
    (negate a).fault? = a.fault?.or (Operation.negation a.exact).fault? := by
  simp [fault?, operations, List.findSome?_append]

theorem fault?_operate (op : ArithmeticOp) (a b : Arithmetic) :
    (operate op a b).fault? =
      a.fault?.or (b.fault?.or (Operation.binary op a.exact b.exact).fault?) := by
  simp [fault?, operations, List.findSome?_append]

/-- A computation that leaves the machine as it is and comes to a fault, if there is one, and
otherwise to a number. -/
def Calculates (x : EvalM Value) (m : Machine) (fault : Option Fault) (exact : Int) : Prop :=
  ∃ o, x.run m = (o, m) ∧ Yields fault exact o

/-- The first part's fault comes before those of what is done with its number. -/
theorem calculates_bind {x : EvalM Value} {k : Value → EvalM Value} {m : Machine}
    {fault fault' : Option Fault} {exact exact' : Int} (hx : Calculates x m fault exact)
    (hk : ∀ n : Int64, n.toInt = exact → Calculates (k (.int n)) m fault' exact') :
    Calculates (x >>= k) m (fault.or fault') exact' := by
  obtain ⟨o, hrun, ho⟩ := hx
  cases fault with
  | some f =>
    cases ho
    exact ⟨_, run_bind_of_error hrun, rfl⟩
  | none =>
    obtain ⟨n, hn, rfl⟩ := ho
    obtain ⟨o', hrun', ho'⟩ := hk n hn
    exact ⟨o', (run_bind_of_ok hrun).trans hrun', ho'⟩

theorem calculates_liftExcept {o : Except Fault Value} {m : Machine} {fault : Option Fault}
    {exact : Int} (h : Yields fault exact o) : Calculates (liftExcept o) m fault exact :=
  ⟨o, run_liftExcept o m, h⟩

section
variable (call : Value → List Value → EvalM Value) (scope : Scope) (m : Machine)

theorem calculates (a : Arithmetic) (site : Site) :
    Calculates (a.expr.eval call scope site) m a.fault? a.exact := by
  induction a generalizing site with
  | literal n => exact ⟨_, rfl, n, rfl, rfl⟩
  | negate a ih =>
    rw [fault?_negate]
    refine calculates_bind (ih (site.child 0)) fun n hn => calculates_liftExcept ?_
    rw [← hn, exact, ← hn]
    exact Operation.yields_unary n
  | operate op a b iha ihb =>
    rw [fault?_operate]
    refine calculates_bind (iha (site.child 0)) fun k hk => ?_
    refine calculates_bind (ihb (site.child 1)) fun n hn => calculates_liftExcept ?_
    rw [exact, ← hk, ← hn]
    exact Operation.yields_binary op k n

/-- Whatever the scope: if no operation divides by zero and each exact result has 64 bits, an
expression comes to the exact integer. Otherwise it comes to the fault of the first operation where
that is not so, a division by zero or else an overflow. The machine stays as it is. -/
theorem eval_exact_or_first_fault (a : Arithmetic) (site : Site) :
    ((∀ o ∈ a.operations, ¬ o.DividesByZero ∧ o.Fits) →
      ∃ n : Int64, n.toInt = a.exact ∧
        (a.expr.eval call scope site).run m = (.ok (.int n), m)) ∧
    ∀ before o behind, a.operations = before ++ o :: behind →
      (∀ p ∈ before, ¬ p.DividesByZero ∧ p.Fits) →
      (o.DividesByZero →
        (a.expr.eval call scope site).run m = (.error .divisionByZero, m)) ∧
      (¬ o.DividesByZero → ¬ o.Fits →
        (a.expr.eval call scope site).run m = (.error .overflow, m)) := by
  obtain ⟨outcome, hrun, ho⟩ := a.calculates call scope m site
  rw [hrun]
  refine ⟨fun hgood => ?_, fun before o behind hops hbefore => ?_⟩
  · have hnone : a.fault? = none := List.findSome?_eq_none_iff.2 fun o ho =>
      o.fault?_eq_none_iff.2 (hgood o ho)
    rw [hnone] at ho
    obtain ⟨n, hn, rfl⟩ := ho
    exact ⟨n, hn, rfl⟩
  · have hnone : before.findSome? Operation.fault? = none :=
      List.findSome?_eq_none_iff.2 fun p hp => p.fault?_eq_none_iff.2 (hbefore p hp)
    have hfirst : ∀ f, o.fault? = some f → outcome = .error f := fun f hf => by
      have hsome : a.fault? = some f := by
        rw [fault?, hops, List.findSome?_append, hnone, List.findSome?_cons, hf, Option.none_or]
      rw [hsome] at ho
      exact ho
    refine ⟨fun hzero => ?_, fun hzero hfits => ?_⟩
    · rw [hfirst .divisionByZero (if_pos hzero)]
    · rw [hfirst .overflow ((if_neg hzero).trans (if_neg hfits))]

end

/-- A quotient that is not whole: `-7 / 2`. -/
def halves : Arithmetic := operate .div (negate (literal 7)) (literal 2)

/-- The least number over `-1`, and behind that a division by zero. -/
def leastQuotient : Arithmetic :=
  operate .mul (operate .div (literal Int64.minValue) (negate (literal 1)))
    (operate .div (literal 1) (literal 0))

/-- The quotient is rounded toward zero. The least number over `-1` is an overflow, and the division
by zero behind it is not come to. -/
theorem eval_quotients :
    (∃ n : Int64, n.toInt = -3 ∧
      (halves.expr.eval (apply 1 1) ⟨0⟩ ⟨0, []⟩).run ⟨Store.empty.fresh.2, .endless⟩ =
        (.ok (.int n), ⟨Store.empty.fresh.2, .endless⟩)) ∧
    (leastQuotient.expr.eval (apply 1 1) ⟨0⟩ ⟨0, []⟩).run ⟨Store.empty.fresh.2, .endless⟩ =
      (.error .overflow, ⟨Store.empty.fresh.2, .endless⟩) := by
  refine ⟨(eval_exact_or_first_fault _ _ _ halves ⟨0, []⟩).1 (by decide), ?_⟩
  refine ((eval_exact_or_first_fault _ _ _ leastQuotient ⟨0, []⟩).2
    [.negation 1] (.binary .div Int64.minValue.toInt (-1)) _ rfl (by decide)).2 ?_ ?_
  · decide
  · decide

end Arithmetic
end LetFn
