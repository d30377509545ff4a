import SignalLang.Native.Apply

/-!
# What native functions give

A function of the library gives a number, a string or an answer, or it objects to its arguments.
Whatever else comes out of a call, values and errors of any other kind, is the doing of the host.

* `Native.plain_apply` : what the functions of the library give.
* `NativeFunction.HostGives functions f args r` : a call of `f` comes down to a function of the
  host.
* `NativeFunction.ok_of_call`, `NativeFunction.error_of_call` : **a native function gives what the
  library gives, or what a function of the host gives for the same arguments.**
-/

namespace SignalLang

/-- A number, a string or an answer. -/
inductive Value.IsResult : Value → Prop
  | number (x : Float) : IsResult (.number x)
  | string (s : String) : IsResult (.string s)
  | boolean (b : Bool) : IsResult (.boolean b)

/-- A problem with the arguments of a call. -/
inductive EvalProblem.OfArguments : EvalProblem → Prop
  | type (expected found : String) : OfArguments (.typeMismatch expected found)
  | arity (name : String) (expected found : Nat) : OfArguments (.arityMismatch name expected found)

/-- A call comes down to a function of the host, which gives `r`. -/
inductive NativeFunction.HostGives (functions : HostFunctions) :
    NativeFunction → List Value → Except EvalError Value → Prop
  | mk {name args entry} :
    HostGives functions ⟨name, args.length, .host entry⟩ args (functions entry args)

/-- A function of the host raises a problem for some arguments. -/
def HostFunctions.CanRaise (functions : HostFunctions) (problem : EvalProblem) : Prop :=
  ∃ entry args e, functions entry args = .error e ∧ e.problem = problem

/-- A host without functions of its own raises nothing. -/
theorem HostFunctions.not_canRaise_none {problem : EvalProblem} :
    ¬ HostFunctions.none.CanRaise problem := by
  rintro ⟨entry, args, e, he, -⟩
  cases he

theorem EvalProblem.OfArguments.signal? {problem : EvalProblem} (h : problem.OfArguments) :
    problem.signal? = none := by
  cases h <;> rfl

namespace Native

/-- A plain result, or a problem with the arguments. -/
inductive Plain : Except EvalProblem Value → Prop
  | ok {v : Value} (h : v.IsResult) : Plain (.ok v)
  | error {problem : EvalProblem} (h : problem.OfArguments) : Plain (.error problem)

theorem plain_bind {α : Type} {x : Except EvalProblem α} {f : α → Except EvalProblem Value}
    (hx : ∀ problem, x = .error problem → problem.OfArguments) (hf : ∀ a, Plain (f a)) :
    Plain (x >>= f) := by
  cases x with
  | ok a => exact hf a
  | error problem => exact .error (hx problem rfl)

theorem numberArg_error {v : Value} {problem : EvalProblem} (h : numberArg v = .error problem) :
    problem.OfArguments := by
  unfold numberArg at h
  split at h
  · cases h
  · cases h; exact .type _ _

theorem stringArg_error {v : Value} {problem : EvalProblem} (h : stringArg v = .error problem) :
    problem.OfArguments := by
  unfold stringArg at h
  split at h
  · cases h
  · cases h; exact .type _ _

theorem plain_unary (n : Native) {f : Value → Except EvalProblem Value} (hf : ∀ v, Plain (f v))
    (args : List Value) : Plain (n.unary f args) := by
  unfold unary
  split
  · exact hf _
  · exact .error (.arity _ _ _)

theorem plain_binary (n : Native) {f : Value → Value → Except EvalProblem Value}
    (hf : ∀ v w, Plain (f v w)) (args : List Value) : Plain (n.binary f args) := by
  unfold binary
  split
  · exact hf _ _
  · exact .error (.arity _ _ _)

theorem plain_onNumbers (n : Native) {f : Float → Float → Value} (hf : ∀ a b, (f a b).IsResult)
    (args : List Value) : Plain (n.onNumbers f args) :=
  n.plain_binary (fun _ _ => plain_bind (fun _ => numberArg_error) fun a =>
    plain_bind (fun _ => numberArg_error) fun b => .ok (hf a b)) args

/-- The functions of the library give plain results and object to their arguments only. -/
theorem plain_apply (n : Native) (args : List Value) : Plain (n.apply args) := by
  cases n with
  | equals => exact plain_binary _ (fun v w => .ok (.boolean _)) args
  | add | subtract | multiply => exact plain_onNumbers _ (fun a b => .number _) args
  | atLeast => exact plain_onNumbers _ (fun a b => .boolean _) args
  | append =>
    refine plain_binary _ (fun v w => plain_bind (fun _ => stringArg_error) fun a => ?_) args
    exact plain_bind (fun _ => stringArg_error) fun b => .ok (.string _)
  | numberToString =>
    refine plain_unary _ (fun v => plain_bind (fun _ => numberArg_error) fun a => ?_) args
    exact .ok (.string _)

end Native

namespace NativeFunction

variable {functions : HostFunctions} {f : NativeFunction} {args : List Value}

/-- A call that passes the check of the number of arguments runs a function of the library or of the
host. -/
theorem call_cases (functions : HostFunctions) (f : NativeFunction) (args : List Value) :
    f.call functions args = .error (.new (.arityMismatch f.name f.arity args.length)) ∨
      (∃ n : Native, f.call functions args = (n.apply args).mapError .new) ∨
        f.HostGives functions args (f.call functions args) := by
  obtain ⟨name, arity, code⟩ := f
  unfold call
  split
  · exact .inl rfl
  rename_i hlen
  obtain rfl : args.length = arity := Decidable.not_not.1 hlen
  cases code with
  | library n => exact .inr (.inl ⟨n, rfl⟩)
  | host entry => exact .inr (.inr .mk)

/-- A value that a native function gives is a plain result, or a function of the host gave it. -/
theorem ok_of_call {v : Value} (h : f.call functions args = .ok v) :
    v.IsResult ∨ f.HostGives functions args (.ok v) := by
  rcases f.call_cases functions args with hcall | ⟨n, hcall⟩ | hcall <;> rw [h] at hcall
  · cases hcall
  · have hplain := n.plain_apply args
    cases hn : n.apply args with
    | ok w =>
      rw [hn] at hcall hplain
      cases hcall
      cases hplain with
      | ok hw => exact .inl hw
    | error problem =>
      rw [hn] at hcall
      cases hcall
  · exact .inr hcall

/-- An error of a native function is an objection to the arguments of which nothing else is known
yet, or a function of the host raised it. -/
theorem error_of_call {e : EvalError} (h : f.call functions args = .error e) :
    (∃ problem, problem.OfArguments ∧ e = .new problem) ∨
      f.HostGives functions args (.error e) := by
  rcases f.call_cases functions args with hcall | ⟨n, hcall⟩ | hcall <;> rw [h] at hcall
  · cases hcall
    exact .inl ⟨_, .arity _ _ _, rfl⟩
  · have hplain := n.plain_apply args
    cases hn : n.apply args with
    | ok w =>
      rw [hn] at hcall
      cases hcall
    | error problem =>
      rw [hn] at hcall hplain
      cases hcall
      cases hplain with
      | error hproblem => exact .inl ⟨problem, hproblem, rfl⟩
  · exact .inr hcall

/-- What comes down to a function of the host is what this function gives. -/
theorem HostGives.exists {r : Except EvalError Value} (h : f.HostGives functions args r) :
    ∃ entry, functions entry args = r := by
  cases h with
  | mk => exact ⟨_, rfl⟩

end NativeFunction

end SignalLang
