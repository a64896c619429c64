import FilterQuery.Proofs.Contexts
import FilterQuery.Proofs.Evaluation.Agreement
import FilterQuery.Proofs.Evaluation.Frames
import FilterQuery.Proofs.Evaluation.Once

/-!
# Proofs/PlainContexts — a context of data leaves nothing to wait for

    { "x": [1, null] }   ──▸   x, x.y, [x, f(x)], …  come to data or to nothing, and
                               the runner stays as it is

A JSON text has no capabilities and no hosts in it, and neither has anything that an expression
comes to in such a context: members of data are data, literals are, and what is built from data is
(`IsOperand.plain`).  So no call finds a capability, nothing is asked, and every value is the one
that it denotes.  **A single pass is exact there** (`check_is_exact`).
-/

namespace FilterQuery

open Runner

variable {ref : Reference} {σ : Type}

/-! ## Data under way -/

/-- On every runner with the context of the reference, in every world and with either flag, the
expression comes to what it denotes, which is data if it is anything, and leaves the runner as it
was. -/
structure Expr.Plain (ref : Reference) (x : Expr) : Prop where
  settles : ∀ (σ : Type) (w : World σ) (flag : Bool) (r : Runner σ), r.context = ref.context →
    x.evaluate w flag r = (.ofOption (ref.denote x), r)
  isData : ∀ v ∈ ref.denote x, v.IsData

/-- The same of what stands at the end of a path. -/
structure Expr.PlainTarget (ref : Reference) (p : Expr) : Prop where
  settles : ∀ (σ : Type) (w : World σ) (flag : Bool) (r : Runner σ), r.context = ref.context →
    p.target w flag r = (.ofOption (ref.target p), r)
  isData : ∀ v ∈ ref.target p, v.IsData

namespace Runner

variable (w : World σ) (r : Runner σ) {a : Option Value} (ha : ∀ v ∈ a, v.IsData)

include ha

/-- A member of data is looked up as the reference does, and the runner stays as it is. -/
theorem member_of_isData (name : String) :
    r.member w (.ofOption a) name = (.ofOption (a.bind (ref.lookup · name)), r) := by
  rcases a with _ | v
  · rfl
  · cases ha v rfl <;> rfl

/-- Data is no capability, so a path that ends in it calls nothing. -/
theorem access_ofOption_of_isData (key : String) :
    r.access w key (.ofOption a) = (.ofOption a, r) := by
  rcases a with _ | v
  · rfl
  · exact r.access_of_isData w key (ha v rfl)

/-- Data is no capability, so applying it gives nothing and leaves the runner alone. -/
theorem apply_of_isData (key : String) (arguments : Runner σ → List Resolved × Runner σ) :
    r.apply w key (.ofOption a) arguments = (.absent, r) := by
  rcases a with _ | v
  · rfl
  · cases ha v rfl <;> rfl

end Runner

namespace Reference

variable {a : Option Value} (ha : ∀ v ∈ a, v.IsData)

include ha

/-- Members of data are data. -/
theorem isData_of_mem_bind (name : String) : ∀ v ∈ a.bind (ref.lookup · name), v.IsData := by
  intro v hv
  obtain ⟨base, hbase, hmember⟩ := Option.bind_eq_some_iff.1 hv
  cases ha base hbase with
  | object hvalues => exact hvalues _ (Fields.mem_of_get?_eq_some hmember)
  | _ => cases hmember

/-- In the reference too a path that ends in data has that data for its value. -/
theorem access_of_isData : ref.access a = a := by
  rcases a with _ | v
  · rfl
  · cases ha v rfl <;> rfl

/-- In the reference too applying data gives nothing. -/
theorem apply_of_isData (args : List Value) : ref.apply args a = none := by
  rcases a with _ | v
  · rfl
  · cases ha v rfl <;> rfl

end Reference

namespace Expr

/-! ## Paths -/

/-- A root name of a context of data finds data. -/
theorem plainTarget_root (hcontext : ∀ v ∈ ref.context, v.IsData) (name : String) :
    PlainTarget ref (root name) where
  settles σ w flag r hr := by
    rw [Expr.target, Runner.root, hr]
    exact member_of_isData w r hcontext name
  isData := Reference.isData_of_mem_bind hcontext name

/-- A step from a plain expression finds data. -/
theorem Plain.target_step {parent : Expr} (h : Plain ref parent) (name : String) :
    PlainTarget ref (step parent name) where
  settles σ w flag r hr := by
    rw [Expr.target, h.settles σ w flag r hr]
    exact member_of_isData w r h.isData name
  isData := Reference.isData_of_mem_bind h.isData name

/-- A path comes to what stands at its end. -/
theorem PlainTarget.plain {p : Expr} (h : PlainTarget ref p)
    (hevaluate : ∀ (σ : Type) (w : World σ) (flag : Bool) (r : Runner σ), p.evaluate w flag r =
      (p.target w flag r).2.access w p.pathKey (p.target w flag r).1)
    (hdenote : ref.denote p = ref.access (ref.target p)) : Plain ref p := by
  rw [Reference.access_of_isData h.isData] at hdenote
  refine ⟨fun σ w flag r hr => ?_, hdenote ▸ h.isData⟩
  rw [hevaluate, h.settles σ w flag r hr, hdenote]
  exact r.access_ofOption_of_isData w h.isData _

/-- **A call comes to nothing,** whatever its arguments are. -/
theorem PlainTarget.denote_call {callee : Expr} (h : PlainTarget ref callee) (args : List Expr) :
    ref.denote (call callee args) = none :=
  Reference.apply_of_isData h.isData _

/-- A call on data is plain: it is absent, with no argument evaluated. -/
theorem PlainTarget.call {callee : Expr} (h : PlainTarget ref callee) (args : List Expr) :
    Plain ref (call callee args) where
  settles σ w flag r hr := by
    rw [evaluate_call, h.settles σ w flag r hr, h.denote_call args]
    exact r.apply_of_isData w h.isData _ _
  isData v hv := by
    rw [h.denote_call args] at hv
    cases hv

/-! ## Arrays and objects -/

/-- Plain expressions in a list are evaluated one by one without a trace on the runner. -/
theorem evaluateAll_of_plain {es : List Expr} (h : ∀ x ∈ es, Plain ref x) (w : World σ)
    (flag : Bool) {r : Runner σ} (hr : r.context = ref.context) :
    evaluateAll w es flag r = (es.map fun x => .ofOption (ref.denote x), r) := by
  induction es with
  | nil => rfl
  | cons x xs ih =>
    obtain ⟨hx, hxs⟩ := List.forall_mem_cons.1 h
    rw [evaluateAll, hx.settles σ w flag r hr, ih hxs]
    rfl

/-- The values of plain expressions are all finished. -/
theorem gather_denote (es : List Expr) :
    gather (es.map fun x => .ofOption (ref.denote x)) = some (ref.denoteAll es) := by
  induction es with
  | nil => rfl
  | cons x xs ih =>
    rw [List.map_cons, gather_cons, ih, orNull?_ofOption]
    rfl

/-- The values of plain expressions are data. -/
theorem isData_of_mem_denoteAll {es : List Expr} (h : ∀ x ∈ es, Plain ref x) :
    ∀ v ∈ ref.denoteAll es, v.IsData := by
  induction es with
  | nil => exact fun _ hv => absurd hv List.not_mem_nil
  | cons x xs ih =>
    obtain ⟨hx, hxs⟩ := List.forall_mem_cons.1 h
    refine List.forall_mem_cons.2 ⟨?_, ih hxs⟩
    rcases hdenote : ref.denote x with _ | v
    · exact .null
    · exact hx.isData v hdenote

/-- The entries of an object mean what their values mean, in order. -/
theorem denoteEntries_eq (entries : List (String × Expr)) :
    ref.denoteEntries entries = ref.denoteAll (entries.map Prod.snd) := by
  induction entries with
  | nil => rfl
  | cons entry entries ih => exact congrArg (_ :: ·) ih

/-- An array of plain expressions is plain. -/
theorem plain_array {items : List Expr} (h : ∀ x ∈ items, Plain ref x) :
    Plain ref (array items) where
  settles σ w flag r hr := by
    rw [evaluate, evaluateAll_of_plain h w true hr]
    simp only [resolveArray, gather_denote]
    rfl
  isData v hv := by
    obtain rfl := Option.some.inj hv
    exact .array (isData_of_mem_denoteAll h)

/-- An object of plain expressions is plain. -/
theorem plain_object {entries : List (String × Expr)} (h : ∀ entry ∈ entries, Plain ref entry.2) :
    Plain ref (object entries) := by
  have hvalues : ∀ x ∈ entries.map Prod.snd, Plain ref x := List.forall_mem_map.2 h
  refine ⟨fun σ w flag r hr => ?_, fun v hv => ?_⟩
  · rw [evaluate, evaluateEntries_eq, evaluateAll_of_plain hvalues w true hr]
    simp only [resolveObject, gather_denote, ← denoteEntries_eq]
    rfl
  · obtain rfl := Option.some.inj hv
    rw [denoteEntries_eq]
    exact Value.isData_ofPairs fun pair hpair =>
      isData_of_mem_denoteAll hvalues _ (List.of_mem_zip hpair).2

/-! ## All values -/

mutual

/-- **In a context of data every value of a query is data or nothing,** and asks nothing. -/
theorem IsOperand.plain (hcontext : ∀ v ∈ ref.context, v.IsData) :
    ∀ {x : Expr}, IsOperand x → Plain ref x
  | _, .literal _ hread => ⟨fun _ _ _ _ _ => rfl, fun _ hv =>
    Option.some.inj hv ▸ Json.isData_of_read hread⟩
  | _, .array hitems => plain_array fun x hx => (hitems x hx).plain hcontext
  | _, .object _ hvalues => plain_object fun entry hentry => (hvalues entry hentry).plain hcontext
  | _, .path hpath => hpath.plain hcontext

/-- **Every path over a context of data is plain**, its calls included. -/
theorem IsPath.plain (hcontext : ∀ v ∈ ref.context, v.IsData) :
    ∀ {x : Expr}, IsPath x → Plain ref x
  | _, @IsPath.root name _ => (plainTarget_root hcontext name).plain (fun _ _ _ _ => rfl) rfl
  | _, @IsPath.step _ name hparent _ =>
    ((hparent.plain hcontext).target_step name).plain (fun _ _ _ _ => rfl) rfl
  | _, @IsPath.call _ args (@IsPath.root name _) _ _ => (plainTarget_root hcontext name).call args
  | _, @IsPath.call _ args (@IsPath.step _ name hparent _) _ _ =>
    ((hparent.plain hcontext).target_step name).call args

end

/-- What may be called stands at data or at nothing. -/
theorem IsPath.plainTarget (hcontext : ∀ v ∈ ref.context, v.IsData) {p : Expr} (hp : IsPath p)
    (hcall : p.isCall = false) : PlainTarget ref p := by
  cases hp with
  | root => exact plainTarget_root hcontext _
  | step hparent _ => exact (hparent.plain hcontext).target_step _
  | call => cases hcall

/-- **A call finds nothing to call,** also if its arguments are there. -/
theorem IsOperand.evaluate_of_isCall (hcontext : ∀ v ∈ ref.context, v.IsData) {x : Expr}
    (hx : IsOperand x) (hcall : x.isCall = true) (w : World σ) (flag : Bool) {r : Runner σ}
    (hr : r.context = ref.context) : x.evaluate w flag r = (.absent, r) := by
  cases hx with
  | path hpath =>
    cases hpath with
    | @call callee args hcallee hcallee' _ =>
      have htarget := hcallee.plainTarget hcontext hcallee'
      rw [(htarget.call args).settles σ w flag r hr, htarget.denote_call args]
      rfl
    | _ => cases hcall
  | _ => cases hcall

/-! ## Conditions -/

/-- The rest of a chain of tests over data is the reference's, and the runner stays as it is. -/
theorem evaluateMore_of_plain (op : Connector) {es : List Expr} {w : World σ} {r : Runner σ}
    (htests : ∀ x ∈ es, IsTest x)
    (h : ∀ x ∈ es, x.evaluate w true r = (.ofOption (ref.denote x), r)) (value : Bool) :
    evaluateMore w op es true value r = (ref.denoteMore op es value, r) := by
  induction es generalizing value with
  | nil => rfl
  | cons x xs ih =>
    obtain ⟨htest, htests⟩ := List.forall_mem_cons.1 htests
    obtain ⟨hx, hxs⟩ := List.forall_mem_cons.1 h
    rw [evaluateMore, Reference.denoteMore, htest.evaluate_false r, hx]
    dsimp only
    rw [isTruthy_ofOption]
    split <;> exact ih htests hxs _

/-- **A condition comes to what it denotes,** and leaves the runner as it was. -/
theorem IsCondition.evaluate_of_plain (hcontext : ∀ v ∈ ref.context, v.IsData) {x : Expr}
    (hx : IsCondition x) (w : World σ) {r : Runner σ} (hr : r.context = ref.context) :
    x.evaluate w true r = (.ofOption (ref.denote x), r) := by
  induction hx with
  | comparison hleft hright =>
    rw [evaluate, if_pos rfl, (hleft.plain hcontext).settles σ w true r hr]
    dsimp only
    rw [(hright.plain hcontext).settles σ w true r hr, testResolved_ofOption]
    rfl
  | @chain op operands hne hoperands ih =>
    obtain ⟨first, more, rfl⟩ := List.exists_cons_of_ne_nil hne
    obtain ⟨hfirst, hmore⟩ := List.forall_mem_cons.1 ih
    have htests : ∀ x ∈ more, IsTest x := fun x hx =>
      (hoperands x (List.mem_cons_of_mem first hx)).isTest
    rw [evaluate, hfirst]
    dsimp only
    rw [isTruthy_ofOption, evaluateMore_of_plain op htests hmore]
    rfl
  | group _ ih => exact ih

end Expr

/-! ## Checks -/

/-- The reference of a context in which nothing can be asked. -/
def Reference.ofContext (context : Option Value) : Reference where
  context := context
  member _ _ := none
  answer _ _ := .null

/-- A context read from a JSON text holds data only: JSON has no capabilities. -/
theorem Json.isData_of_mapM_read {input : Option String} {context : Option Value}
    (h : input.mapM read = .ok context) :
    ∀ v ∈ (Reference.ofContext context).context, v.IsData := by
  intro v hv
  cases input with
  | none =>
    cases h
    cases hv
  | some text =>
    rw [Option.mapM_some] at h
    rcases hread : read text with e | v'
    · rw [hread] at h
      cases h
    · rw [hread] at h
      cases h
      cases hv
      exact isData_of_read hread

namespace Query

open FilterQuery.Expr

/-- A text that gives no query fails in the lexer: it is the only thing `ofText` runs. -/
theorem exists_lex_of_ofText {source : String} {e : QueryError} (h : ofText source = .error e) :
    ∃ l, e = .lex l := by
  unfold ofText at h
  split at h
  · cases h
  · next l _ =>
    cases h
    exact ⟨l, rfl⟩

/-- A query that gives no tree fails with the mistakes of the parser, never with a lexer's error. -/
theorem exists_errors_of_parse {q : Query} {e : QueryError} (h : q.parse = .error e) :
    ∃ errors, e = .parse errors := by
  rw [parse] at h
  rcases htree : Expr.ofTokens q.tokens with errors | tree
  · rw [htree] at h
    cases h
    exact ⟨errors, rfl⟩
  · rw [htree] at h
    cases h

/-- In a context of data a query takes one pass, which does nothing, and has the answer that it
denotes. -/
theorem run_of_plain {q : Query} {e : Expr} (h : q.parse = .ok e)
    (hcontext : ∀ v ∈ ref.context, v.IsData) (w : World σ) (world : σ) :
    let r := start ref.context world
    e.holds w r = (Reference.truthy (ref.denote e), r) ∧
      q.runOnce w ref.context world = ⟨.ok (Reference.truthy (ref.denote e)), 1, r⟩ ∧
      q.run w ref.context world = ⟨.ok (Reference.truthy (ref.denote e)), 1, r⟩ := by
  intro r
  have hholds : e.holds w r = (Reference.truthy (ref.denote e), r) := by
    rw [holds, (q.isCondition h).evaluate_of_plain hcontext w rfl, isTruthy_ofOption]
  have hpass : e.pass w r = (Reference.truthy (ref.denote e), r) :=
    (pass_start w e ref.context world).trans hholds
  have honce := runOnce_of_pending_eq_nil (w := w) h ref.context world
  have hone := run_passes_eq_one_iff (w := w) h ref.context world
  have hrun := run_of_passes_eq_one (w := w) h ref.context world
  rw [hpass] at honce hone hrun
  exact ⟨hholds, honce rfl, hrun (hone.2 (Nat.lt_irrefl 0))⟩

/-- **The check answers for every query** that parses and every context that reads: it matches by
the truth of the query over the context. -/
theorem perform_of_plain {q : Query} {e : Expr} {query : String} {input : Option String}
    {context : Option Value} (hquery : ofText query = .ok q) (hparse : q.parse = .ok e)
    (hinput : input.mapM Json.read = .ok context) : Check.perform ⟨query, input, false⟩ =
      .ok (.matched (Reference.truthy ((Reference.ofContext context).denote e))) := by
  have hcontext := Json.isData_of_mapM_read hinput
  obtain ⟨-, honce, -⟩ := run_of_plain hparse hcontext World.inert ()
  have hresult : (q.runOnce World.inert context ()).result = .ok _ := congrArg Run.result honce
  rw [Check.perform_of_ok hquery hinput, hresult]
  rfl

/-- **A check never fails for deferred values.** -/
theorem perform_ne_deferred (query : String) (input : Option String) (keys : List String) :
    Check.perform ⟨query, input, false⟩ ≠ .error (.query (.deferred keys)) := by
  rcases hquery : ofText query with e | q
  · obtain ⟨l, rfl⟩ := exists_lex_of_ofText hquery
    rw [Check.perform_eq, hquery]
    exact fun h => by cases h
  · rcases hinput : input.mapM Json.read with e | context
    · rw [Check.perform_eq, hquery, hinput]
      exact fun h => by cases h
    · rcases hparse : q.parse with e | e
      · obtain ⟨errors, rfl⟩ := exists_errors_of_parse hparse
        have hresult : (q.runOnce World.inert context ()).result = .error (.parse errors) := by
          rw [runOnce, hparse]
        rw [Check.perform_of_ok hquery hinput, hresult]
        exact fun h => by cases h
      · rw [perform_of_plain hquery hparse hinput]
        exact fun h => by cases h

/-- **A single pass over a JSON context is exact.**  A check that is not about the syntax only never
fails for deferred values, whatever its texts are.  If the query splits into tokens and parses, and
the input, if there is one, is JSON, the check has an answer.  A single pass with this context and
a whole run have it too, in every world, after one pass that leaves the runner as it was: it knows
no key, nothing is queued, and this is so before and after every evaluation within the pass.  Every
call in the query comes to nothing, with either flag. -/
theorem check_is_exact (query : String) (input : Option String) :
    (∀ keys, Check.perform ⟨query, input, false⟩ ≠ .error (.query (.deferred keys))) ∧
    ∀ (q : Query) (e : Expr) (context : Option Value), ofText query = .ok q → q.parse = .ok e →
      input.mapM Json.read = .ok context →
      ∃ answer, Check.perform ⟨query, input, false⟩ = .ok (.matched answer) ∧
        ∀ (σ : Type) (w : World σ) (world : σ),
          let r := start context world
          (r.memo = [] ∧ r.pending = []) ∧
          q.runOnce w context world = ⟨.ok answer, 1, r⟩ ∧
          q.run w context world = ⟨.ok answer, 1, r⟩ ∧
          (∀ f, Frame.Meets w ⟨e, true, r⟩ f → f.runner = r ∧ (f.result w).2 = r) ∧
          ∀ x, e.HasPart x → x.isCall = true → ∀ flag, x.evaluate w flag r = (.absent, r) := by
  refine ⟨perform_ne_deferred query input, fun q e context hquery hparse hinput => ?_⟩
  have hcontext := Json.isData_of_mapM_read hinput
  refine ⟨_, perform_of_plain hquery hparse hinput, fun σ w world => ?_⟩
  intro r
  obtain ⟨hholds, honce, hrun⟩ := run_of_plain hparse hcontext w world
  have hidle : (Frame.result w ⟨e, true, r⟩).2 = r := congrArg Prod.snd hholds
  refine ⟨⟨rfl, rfl⟩, honce, hrun, fun f hmeets => hmeets.idle hidle, fun x hx hcall flag => ?_⟩
  have hvalue : x.isValue = true := by
    cases x with
    | call => rfl
    | _ => cases hcall
  have hoperand : IsOperand x := ((q.isCondition hparse).of_hasPart hx).1 hvalue
  exact hoperand.evaluate_of_isCall hcontext hcall w flag rfl

/-- The query `f(x) = 1 OR x = 1`, whose call has an argument that is there. -/
def plainQuery : Query where
  source := "f(x) = 1 OR x = 1"
  tokens := [⟨.segment, "f", 0⟩, ⟨.punct .openParen, "(", 1⟩, ⟨.segment, "x", 2⟩,
    ⟨.punct .closeParen, ")", 3⟩, ⟨.comparator .equal, "=", 5⟩, ⟨.literal .number, "1", 7⟩,
    ⟨.connector .or, "OR", 9⟩, ⟨.segment, "x", 12⟩, ⟨.comparator .equal, "=", 14⟩,
    ⟨.literal .number, "1", 16⟩, ⟨.endOfInput, "", 17⟩]
  ofText_source := by with_unfolding_all rfl

/-- The tree of `plainQuery`. -/
def plainExpr : Expr :=
  .chain .or [.comparison (.call (.root "f") [.root "x"]) .equal (.literal (.int 1) "1"),
    .comparison (.root "x") .equal (.literal (.int 1) "1")]

/-- The input of `plainQuery`. -/
def plainInput : String :=
  "\x7b\"f\": [], \"x\": 1\x7d"

/-- What `plainInput` stands for. -/
def plainContext : Value :=
  .ofPairs [("f", .array []), ("x", .int 1)]

theorem plainQuery_check_is_exact :
    (Query.ofText plainQuery.source = .ok plainQuery ∧ plainQuery.parse = .ok plainExpr ∧
      (some plainInput).mapM Json.read = .ok (some plainContext)) ∧
    Check.perform ⟨plainQuery.source, some plainInput, false⟩ = .ok (.matched true) ∧
      (plainQuery.run nestedWorld plainContext ()).result = .ok true ∧
      (call (root "f") [root "x"]).evaluate nestedWorld true (start plainContext ()) =
        (.absent, start plainContext ()) := by
  have hquery : Query.ofText plainQuery.source = .ok plainQuery := ofText_source_eq plainQuery
  have hparse : plainQuery.parse = .ok plainExpr := by with_unfolding_all rfl
  have hread : Json.read plainInput = .ok plainContext := by with_unfolding_all rfl
  have hinput := Json.mapM_read_some hread
  obtain ⟨answer, hperform, hruns⟩ :=
    (check_is_exact plainQuery.source (some plainInput)).2 plainQuery plainExpr plainContext hquery
      hparse hinput
  obtain ⟨-, honce, hrun, -, hcalls⟩ := hruns Unit nestedWorld ()
  have hanswer : (plainQuery.runOnce nestedWorld plainContext ()).result = .ok true := by
    with_unfolding_all rfl
  rw [honce] at hanswer
  obtain rfl : answer = true := Except.ok.inj hanswer
  have hpart : plainExpr.HasPart (call (root "f") [root "x"]) :=
    .child (.child .self List.mem_cons_self) List.mem_cons_self
  exact ⟨⟨hquery, hparse, hinput⟩, hperform, congrArg Run.result hrun, hcalls _ hpart rfl true⟩

end Query

end FilterQuery
