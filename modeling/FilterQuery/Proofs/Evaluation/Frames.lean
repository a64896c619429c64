import FilterQuery.Proofs.Evaluation.Phases
import FilterQuery.Proofs.Evaluation.Suppressed
import Mathlib.Logic.Relation

/-!
# Proofs/Evaluation/Frames — the evaluations inside an evaluation

    f(a.b, g) = 1 ──▸ f(a.b, g) ──▸ a.b ──▸ a
                 │             └──▸ g           once `f` has turned out to be a capability
                 └──▸ 1

A `Frame` is an evaluation that is about to begin: of an expression, with a flag, on a runner.  It
**enters** the frames of the parts that it evaluates, each on the runner that the parts before it
have left, and **meets** what these enter in turn.  Every frame that is met belongs to a part of the
expression, and every relation that evaluation respects leads from the outer frame to the inner one,
and from the end of the inner one to the end of the outer one (`Closed.meets`).  A frame invokes a
capability itself as the last thing it does, if at all, and **what an evaluation calls is what the
frames that it meets call** (`mem_log_result_iff`).
-/

namespace FilterQuery

open Runner

variable {σ : Type} {w : World σ}

/-! ## Evaluation, cut into parts -/

/-- What a path comes to before anything is called there: what stands at its last name.  Nothing
else than a path can be called. -/
def Expr.target (w : World σ) : Expr → (flag : Bool) → Runner σ → Resolved × Runner σ
  | root name, _, r => r.member w r.root name
  | step parent name, flag, r =>
    let base := parent.evaluate w flag r
    base.2.member w base.1 name
  | _, _, r => (.absent, r)

/-- A call finds its target first and then applies it to the arguments, which are evaluated only
then. -/
theorem Expr.evaluate_call (callee : Expr) (args : List Expr) (flag : Bool) (r : Runner σ) :
    (call callee args).evaluate w flag r =
      (callee.target w flag r).2.apply w callee.pathKey (callee.target w flag r).1
        (evaluateAll w args flag) := by
  cases callee <;> rfl

/-- The second part of a list is evaluated on the runner the first part leaves. -/
theorem Expr.evaluateAll_append (xs ys : List Expr) (flag : Bool) (r : Runner σ) :
    (evaluateAll w (xs ++ ys) flag r).2 =
      (evaluateAll w ys flag (evaluateAll w xs flag r).2).2 := by
  induction xs generalizing r with
  | nil => rfl
  | cons x xs ih => exact ih _

/-- The values of an object literal are evaluated like the items of an array. -/
theorem Expr.evaluateEntries_eq (entries : List (String × Expr)) (r : Runner σ) :
    evaluateEntries w entries r = evaluateAll w (entries.map Prod.snd) true r := by
  induction entries generalizing r with
  | nil => rfl
  | cons entry entries ih =>
    rw [evaluateEntries, ih]
    rfl

/-- An operand of a chain is evaluated, and the rest only if it does not decide. -/
theorem Expr.evaluateMore_cons (op : Connector) (x : Expr) (xs : List Expr) (flag value : Bool)
    (r : Runner σ) :
    let out := x.evaluate w (if op.decides value then false else flag) r
    evaluateMore w op (x :: xs) flag value r =
      evaluateMore w op xs flag (if op.decides value then value else out.1.isTruthy) out.2 := by
  rw [evaluateMore]
  split <;> rfl

/-! ## Frames -/

/-- An evaluation that is about to begin. -/
structure Frame (σ : Type) where
  expr : Expr
  flag : Bool
  runner : Runner σ

namespace Frame

/-- What the evaluation comes to, and the runner afterwards. -/
def result (w : World σ) (f : Frame σ) : Resolved × Runner σ :=
  f.expr.evaluate w f.flag f.runner

/-- One evaluation is a step of another one, on the runner that the steps before it have left.  A
comparison takes steps with the flag on only, and a call evaluates its arguments only if there is a
capability to call. -/
inductive Enters (w : World σ) : Frame σ → Frame σ → Prop where
  | item {items before after : List Expr} {x : Expr} (flag : Bool) (r : Runner σ) :
      items = before ++ x :: after →
      Enters w ⟨.array items, flag, r⟩ ⟨x, true, (Expr.evaluateAll w before true r).2⟩
  | entry {entries : List (String × Expr)} {before after : List Expr} {x : Expr} (flag : Bool)
      (r : Runner σ) : entries.map Prod.snd = before ++ x :: after →
      Enters w ⟨.object entries, flag, r⟩ ⟨x, true, (Expr.evaluateAll w before true r).2⟩
  | parent (parent : Expr) (name : String) (flag : Bool) (r : Runner σ) :
      Enters w ⟨.step parent name, flag, r⟩ ⟨parent, flag, r⟩
  | callee (parent : Expr) (name : String) (args : List Expr) (flag : Bool) (r : Runner σ) :
      Enters w ⟨.call (.step parent name) args, flag, r⟩ ⟨parent, flag, r⟩
  | argument {callee : Expr} {args before after : List Expr} {x : Expr} {flag : Bool}
      {r : Runner σ} {c : Capability} : args = before ++ x :: after →
      (callee.target w flag r).1 = .value (.capability c) →
      Enters w ⟨.call callee args, flag, r⟩
        ⟨x, flag, (Expr.evaluateAll w before flag (callee.target w flag r).2).2⟩
  | left (left : Expr) (op : Comparator) (right : Expr) (r : Runner σ) :
      Enters w ⟨.comparison left op right, true, r⟩ ⟨left, true, r⟩
  | right (left : Expr) (op : Comparator) (right : Expr) (r : Runner σ) :
      Enters w ⟨.comparison left op right, true, r⟩ ⟨right, true, (left.evaluate w true r).2⟩
  | first (op : Connector) (first : Expr) (more : List Expr) (flag : Bool) (r : Runner σ) :
      Enters w ⟨.chain op (first :: more), flag, r⟩ ⟨first, flag, r⟩
  | operand {op : Connector} {first x : Expr} {more before after : List Expr} {flag : Bool}
      {r : Runner σ} {stand : Bool × Runner σ} : more = before ++ x :: after →
      stand = Expr.evaluateMore w op before flag (first.evaluate w flag r).1.isTruthy
        (first.evaluate w flag r).2 →
      Enters w ⟨.chain op (first :: more), flag, r⟩
        ⟨x, if op.decides stand.1 then false else flag, stand.2⟩
  | inner (inner : Expr) (flag : Bool) (r : Runner σ) :
      Enters w ⟨.group inner, flag, r⟩ ⟨inner, flag, r⟩

/-- One evaluation takes place within another one, or is the same. -/
def Meets (w : World σ) : Frame σ → Frame σ → Prop :=
  Relation.ReflTransGen (Enters w)

/-- What an evaluation invokes itself, under which key and on which runner: a path the capability it
ends at, without arguments, and a call the capability its path ends at, once its arguments are
there. -/
inductive Invokes (w : World σ) :
    Frame σ → String → Capability → List Value → Runner σ → Prop where
  | path {p : Expr} {flag : Bool} {r : Runner σ} {c : Capability} :
      (p.target w flag r).1 = .value (.capability c) →
      Invokes w ⟨p, flag, r⟩ p.pathKey c [] (p.target w flag r).2
  | call {callee : Expr} {args : List Expr} {flag : Bool} {r : Runner σ} {c : Capability}
      {values : List Value} : (callee.target w flag r).1 = .value (.capability c) →
      gather (Expr.evaluateAll w args flag (callee.target w flag r).2).1 = some values →
      Invokes w ⟨.call callee args, flag, r⟩ callee.pathKey c values
        (Expr.evaluateAll w args flag (callee.target w flag r).2).2

/-- What is invoked is called if nothing is known under its key. -/
def Calls (w : World σ) (f : Frame σ) (key : String) (c : Capability) (args : List Value) : Prop :=
  ∃ s, f.Invokes w key c args s ∧ ¬ s.Knows key

variable {f g : Frame σ}

/-! ## Parts -/

/-- An entered expression is a part of a child. -/
theorem Enters.exists_child (h : Enters w f g) : ∃ y ∈ f.expr.children, y.HasPart g.expr := by
  cases h with
  | item _ _ h | entry _ _ h | argument h _ | operand h _ =>
    exact ⟨_, by simp [Expr.children, h], .self⟩
  | callee parent name =>
    exact ⟨.step parent name, List.mem_cons_self, .child .self List.mem_cons_self⟩
  | _ => exact ⟨_, by simp [Expr.children], .self⟩

/-- Whatever an evaluation meets is a part of the expression. -/
theorem Meets.hasPart (h : f.Meets w g) : f.expr.HasPart g.expr := by
  induction h with
  | refl => exact .self
  | tail _ h ih =>
    obtain ⟨y, hy, hpart⟩ := h.exists_child
    exact ih.trans (hpart.of_mem_children hy)

/-- Entering goes down in the tree, so the induction over frames ends. -/
theorem Enters.sizeOf_lt (h : Enters w f g) : sizeOf g.expr < sizeOf f.expr := by
  obtain ⟨y, hy, hpart⟩ := h.exists_child
  exact Nat.lt_of_le_of_lt hpart.sizeOf_le (Expr.sizeOf_lt_of_mem_children hy)

end Frame

/-! ## From the outer frame to the inner one and back -/

namespace Runner.Closed

variable {R : Runner σ → Runner σ → Prop} {f g : Frame σ}

/-- A relation closed under evaluation holds over the evaluation of a target. -/
theorem target (h : Closed w R) (p : Expr) (flag : Bool) (r : Runner σ) :
    R r (p.target w flag r).2 := by
  cases p with
  | root name => exact h.member _ name r
  | step parent name => exact h.trans (h.evaluate parent flag r) (h.member _ name _)
  | _ => exact h.refl r

/-- A call goes on from where its arguments have led. -/
theorem of_arguments (h : Closed w R) (key : String) (c : Capability)
    (arguments : Runner σ → List Resolved × Runner σ) (r : Runner σ) :
    R (arguments r).2 (r.apply w key (.value (.capability c)) arguments).2 := by
  unfold Runner.apply
  dsimp only
  split
  · exact h.invoke key c _ _
  · exact h.refl _

/-- A closed relation holds from a frame to each frame it enters, and from the end of that one to
its own end. -/
theorem enters (h : Closed w R) (hfg : f.Enters w g) :
    R f.runner g.runner ∧ R (g.result w).2 (f.result w).2 := by
  cases hfg with
  | @item items before after x flag r hitems =>
    refine ⟨h.evaluateAll before true r, ?_⟩
    change R _ (Expr.evaluateAll w items true r).2
    rw [hitems, Expr.evaluateAll_append]
    exact h.evaluateAll after true _
  | @entry entries before after x flag r hentries =>
    refine ⟨h.evaluateAll before true r, ?_⟩
    change R _ (Expr.evaluateEntries w entries r).2
    rw [Expr.evaluateEntries_eq, hentries, Expr.evaluateAll_append]
    exact h.evaluateAll after true _
  | parent parent name flag r => exact ⟨h.refl r, h.trans (h.member _ name _) (h.access _ _ _)⟩
  | callee parent name args flag r =>
    exact ⟨h.refl r, h.trans (h.member _ name _) (h.apply _ _ (h.evaluateAll args flag) _)⟩
  | @argument callee args before after x flag r c hargs htarget =>
    refine ⟨h.trans (h.target callee flag r) (h.evaluateAll before flag _), ?_⟩
    have hcall := h.of_arguments callee.pathKey c (Expr.evaluateAll w args flag)
      (callee.target w flag r).2
    rw [← htarget, ← Expr.evaluate_call, hargs, Expr.evaluateAll_append] at hcall
    rw [hargs]
    exact h.trans (h.evaluateAll after flag _) hcall
  | left left op right r => exact ⟨h.refl r, h.evaluate right true _⟩
  | right left op right r => exact ⟨h.evaluate left true r, h.refl _⟩
  | first op first more flag r => exact ⟨h.refl r, h.evaluateMore op more flag _ _⟩
  | @operand op first x more before after flag r stand hmore hstand =>
    refine ⟨?_, ?_⟩
    · rw [hstand]
      exact h.trans (h.evaluate first flag r) (h.evaluateMore op before flag _ _)
    · change R _ (Expr.evaluateMore w op more flag _ _).2
      rw [hmore, Expr.evaluateMore_append, ← hstand, Expr.evaluateMore_cons]
      exact h.evaluateMore op after flag _ _
  | inner inner flag r => exact ⟨h.refl r, h.refl _⟩

/-- **What evaluation respects leads into every evaluation within it, and out of it again.** -/
theorem meets (h : Closed w R) (hfg : f.Meets w g) :
    R f.runner g.runner ∧ R (g.result w).2 (f.result w).2 := by
  induction hfg with
  | refl => exact ⟨h.refl _, h.refl _⟩
  | tail _ hstep ih =>
    obtain ⟨hinto, hout⟩ := h.enters hstep
    exact ⟨h.trans ih.1 hinto, h.trans hout ih.2⟩

end Runner.Closed

/-! ## Where nothing happens -/

/-- From `r` to `s` the log grows, unless nothing is done at all. -/
def Runner.Logs (r s : Runner σ) : Prop :=
  ∃ events, s.log = r.log ++ events ∧ (events = [] → s = r)

namespace Runner

variable {r s t : Runner σ}

theorem Logs.refl (r : Runner σ) : Logs r r :=
  ⟨[], (List.append_nil _).symm, fun _ => rfl⟩

theorem Logs.trans (h : Logs r s) (h' : Logs s t) : Logs r t := by
  obtain ⟨xs, hxs, hidle⟩ := h
  obtain ⟨ys, hys, hidle'⟩ := h'
  refine ⟨xs ++ ys, by rw [hys, hxs, List.append_assoc], fun hnil => ?_⟩
  obtain ⟨hx, hy⟩ := List.append_eq_nil_iff.1 hnil
  rw [hidle' hy, hidle hx]

/-- **What is undone has not been done.** -/
theorem Logs.antisymm (h : Logs r s) (h' : Logs s r) : s = r := by
  obtain ⟨xs, hxs, hidle⟩ := h
  obtain ⟨ys, hys, -⟩ := h'
  refine hidle (List.eq_nil_of_length_eq_zero ?_)
  have hlength := congrArg List.length hys
  rw [hxs, List.length_append, List.length_append] at hlength
  omega

/-- The log only grows, whatever is evaluated. -/
theorem closed_logs : Closed w Logs where
  refl := .refl
  trans := .trans
  call key c args r _ := ⟨[.call key c args], log_call w key c args r, by simp⟩
  lookup v name r := by
    cases v with
    | host h => exact ⟨[.get h name], rfl, by simp⟩
    | _ => exact .refl r

end Runner

/-- **In an evaluation that does nothing, nothing is done.** -/
theorem Frame.Meets.idle {f g : Frame σ} (h : f.Meets w g) (hidle : (f.result w).2 = f.runner) :
    g.runner = f.runner ∧ (g.result w).2 = f.runner := by
  obtain ⟨hinto, hout⟩ := closed_logs.meets h
  have hdo : Logs g.runner (g.result w).2 := closed_logs.evaluate g.expr g.flag g.runner
  rw [hidle] at hout
  exact ⟨hinto.antisymm (hdo.trans hout), (hinto.trans hdo).antisymm hout⟩

/-! ## Who calls -/

namespace Runner

/-- From `r` to `s` this has happened, and not before. -/
def Adds (event : Event) (r s : Runner σ) : Prop :=
  event ∉ r.log ∧ event ∈ s.log

variable {event : Event} {key key' : String} {c c' : Capability} {args args' : List Value}
  {r s t : Runner σ}

/-- Nothing is added between a runner and itself. -/
theorem not_adds_self : ¬ Adds event r r :=
  fun h => h.1 h.2

/-- An event added on the way was added before or after any point of it. -/
theorem Adds.through (h : Adds event r t) (s : Runner σ) : Adds event r s ∨ Adds event s t := by
  by_cases hs : event ∈ s.log
  · exact Or.inl ⟨h.1, hs⟩
  · exact Or.inr ⟨hs, h.2⟩

/-- A member makes no call. -/
theorem not_adds_member (base : Resolved) (name : String) :
    ¬ Adds (.call key c args) r (r.member w base name).2 := by
  rintro ⟨hr, hs⟩
  cases base with
  | value v =>
    cases v with
    | host h =>
      have hmem : Event.call key c args ∈ r.log ++ [.get h name] := hs
      exact hr (by simpa using hmem)
    | _ => exact hr hs
  | _ => exact hr hs

/-- An invocation adds one call at most, its own, and only under a key not known before. -/
theorem adds_invoke (h : Adds (.call key' c' args') r (r.invoke w key c args).2) :
    ¬ r.Knows key ∧ key' = key ∧ c' = c ∧ args' = args :=
  (mem_log_invoke_iff.1 h.2).resolve_left h.1

/-- A path that ends in a capability calls it when the key is not known. -/
theorem mem_log_access_of_not_knows {target : Resolved} (htarget : target = .value (.capability c))
    (hkey : ¬ r.Knows key) : .call key c [] ∈ (r.access w key target).2.log := by
  rw [htarget]
  exact mem_log_invoke_iff.2 (Or.inr ⟨hkey, rfl, rfl, rfl⟩)

/-- The value of a path adds one call at most, without arguments. -/
theorem adds_access {target : Resolved}
    (h : Adds (.call key' c' args') r (r.access w key target).2) :
    target = .value (.capability c') ∧ ¬ r.Knows key ∧ key' = key ∧ args' = [] := by
  unfold Runner.access at h
  split at h
  · obtain ⟨hnew, hkey, rfl, hargs⟩ := adds_invoke h
    exact ⟨rfl, hnew, hkey, hargs⟩
  · exact absurd h not_adds_self

/-- A call that an application adds is one its arguments make or its own. -/
theorem adds_apply {target : Resolved} {arguments : Runner σ → List Resolved × Runner σ}
    (h : Adds (.call key' c' args') r (r.apply w key target arguments).2) :
    ∃ c, target = .value (.capability c) ∧ (Adds (.call key' c' args') r (arguments r).2 ∨
      c' = c ∧ gather (arguments r).1 = some args' ∧ ¬ (arguments r).2.Knows key ∧ key' = key) := by
  unfold Runner.apply at h
  split at h
  · next c =>
    refine ⟨c, rfl, ?_⟩
    rcases h.through (arguments r).2 with hargs | hcall
    · exact Or.inl hargs
    · dsimp only at hcall
      split at hcall
      · next values hvalues =>
        obtain ⟨hnew, hkey, hc, rfl⟩ := adds_invoke hcall
        exact Or.inr ⟨hc, hvalues, hnew, hkey⟩
      · exact absurd hcall not_adds_self
  · exact absurd h not_adds_self
  · exact absurd h not_adds_self

end Runner

namespace Expr

variable {event : Event} {r : Runner σ}

/-- What expressions in a row add, one of them adds. -/
theorem exists_adds_of_evaluateAll {es : List Expr} {flag : Bool}
    (h : Adds event r (evaluateAll w es flag r).2) : ∃ before x after, es = before ++ x :: after ∧
      Adds event (evaluateAll w before flag r).2
        (x.evaluate w flag (evaluateAll w before flag r).2).2 := by
  induction es generalizing r with
  | nil => exact absurd h not_adds_self
  | cons x xs ih =>
    rcases h.through (x.evaluate w flag r).2 with hx | hxs
    · exact ⟨[], x, xs, rfl, hx⟩
    · obtain ⟨before, y, after, rfl, hy⟩ := ih hxs
      exact ⟨x :: before, y, after, rfl, hy⟩

/-- What the rest of a chain adds, one of its operands adds. -/
theorem exists_adds_of_evaluateMore {op : Connector} {es : List Expr} {flag value : Bool}
    (h : Adds event r (evaluateMore w op es flag value r).2) :
    ∃ before x after, es = before ++ x :: after ∧
      let stand := evaluateMore w op before flag value r
      Adds event stand.2 (x.evaluate w (if op.decides stand.1 then false else flag) stand.2).2 := by
  induction es generalizing r value with
  | nil => exact absurd h not_adds_self
  | cons x xs ih =>
    rw [evaluateMore_cons] at h
    rcases h.through (x.evaluate w (if op.decides value then false else flag) r).2 with hx | hxs
    · exact ⟨[], x, xs, rfl, hx⟩
    · obtain ⟨before, y, after, rfl, hy⟩ := ih hxs
      refine ⟨x :: before, y, after, rfl, ?_⟩
      rw [evaluateMore_cons]
      exact hy

/-- A target makes a call only by evaluating the parent of its last step. -/
theorem exists_step_of_adds_target {p : Expr} {flag : Bool} {key : String} {c : Capability}
    {args : List Value} (h : Adds (.call key c args) r (p.target w flag r).2) :
    ∃ parent name, p = step parent name ∧
      Adds (.call key c args) r (parent.evaluate w flag r).2 := by
  cases p with
  | root name => exact absurd h (not_adds_member _ name)
  | step parent name =>
    exact ⟨parent, name, rfl, (h.through _).resolve_right (not_adds_member _ name)⟩
  | _ => exact absurd h not_adds_self

end Expr

namespace Frame

variable {f g : Frame σ} {key : String} {c : Capability} {args : List Value}

/-- **What an evaluation adds to the calls, it calls itself, or a frame that it enters adds it.** -/
theorem calls_or_enters (h : Adds (.call key c args) f.runner (f.result w).2) :
    f.Calls w key c args ∨ ∃ g, f.Enters w g ∧ Adds (.call key c args) g.runner (g.result w).2 := by
  obtain ⟨x, flag, r⟩ := f
  cases x with
  | literal v lexeme => exact absurd h not_adds_self
  | array items =>
    obtain ⟨before, x, after, hitems, hx⟩ := Expr.exists_adds_of_evaluateAll h
    exact Or.inr ⟨_, .item flag r hitems, hx⟩
  | object entries =>
    change Adds _ r (Expr.evaluateEntries w entries r).2 at h
    rw [Expr.evaluateEntries_eq] at h
    obtain ⟨before, x, after, hentries, hx⟩ := Expr.exists_adds_of_evaluateAll h
    exact Or.inr ⟨_, .entry flag r hentries, hx⟩
  | root name =>
    have haccess := (h.through ((Expr.root name).target w flag r).2).resolve_left
      (not_adds_member r.root name)
    obtain ⟨htarget, hnew, rfl, rfl⟩ := adds_access haccess
    exact Or.inl ⟨_, .path (p := .root key) htarget, hnew⟩
  | step parent name =>
    rcases h.through (parent.evaluate w flag r).2 with hparent | hrest
    · exact Or.inr ⟨_, .parent parent name flag r, hparent⟩
    · have haccess := (hrest.through ((Expr.step parent name).target w flag r).2).resolve_left
        (not_adds_member _ name)
      obtain ⟨htarget, hnew, rfl, rfl⟩ := adds_access haccess
      exact Or.inl ⟨_, .path (p := .step parent name) htarget, hnew⟩
  | call callee operands =>
    change Adds _ r ((Expr.call callee operands).evaluate w flag r).2 at h
    rw [Expr.evaluate_call] at h
    rcases h.through (callee.target w flag r).2 with htarget | happly
    · obtain ⟨parent, name, rfl, hparent⟩ := Expr.exists_step_of_adds_target htarget
      exact Or.inr ⟨_, .callee parent name operands flag r, hparent⟩
    · obtain ⟨c', htarget, harguments | ⟨rfl, hvalues, hnew, rfl⟩⟩ := adds_apply happly
      · obtain ⟨before, x, after, hoperands, hx⟩ := Expr.exists_adds_of_evaluateAll harguments
        exact Or.inr ⟨_, .argument hoperands htarget, hx⟩
      · exact Or.inl ⟨_, .call htarget hvalues, hnew⟩
  | comparison left op right =>
    cases flag with
    | false => exact absurd h not_adds_self
    | true =>
      rcases h.through (left.evaluate w true r).2 with hleft | hright
      · exact Or.inr ⟨_, .left left op right r, hleft⟩
      · exact Or.inr ⟨_, .right left op right r, hright⟩
  | chain op operands =>
    cases operands with
    | nil => exact absurd h not_adds_self
    | cons first more =>
      rcases h.through (first.evaluate w flag r).2 with hfirst | hmore
      · exact Or.inr ⟨_, .first op first more flag r, hfirst⟩
      · obtain ⟨before, x, after, hsplit, hx⟩ := Expr.exists_adds_of_evaluateMore hmore
        exact Or.inr ⟨_, .operand hsplit rfl, hx⟩
  | group inner => exact Or.inr ⟨_, .inner inner flag r, h⟩

/-- **What an evaluation adds to the calls, a frame that it meets calls.** -/
theorem exists_meets_of_adds (h : Adds (.call key c args) f.runner (f.result w).2) :
    ∃ g, f.Meets w g ∧ g.Calls w key c args := by
  -- a frame that is entered has a smaller expression, though not always a child of this one: from a
  -- call the path before its last name is entered, and not the callee
  induction hsize : sizeOf f.expr using Nat.strongRecOn generalizing f with
  | ind size ih =>
    rcases calls_or_enters h with hcalls | ⟨g, henters, hadds⟩
    · exact ⟨f, .refl, hcalls⟩
    · obtain ⟨g', hmeets, hcalls⟩ := ih _ (hsize ▸ henters.sizeOf_lt) hadds rfl
      exact ⟨g', .head henters hmeets, hcalls⟩

/-- A call that is made stands in the log afterwards. -/
theorem Calls.mem_log (h : f.Calls w key c args) : .call key c args ∈ (f.result w).2.log := by
  obtain ⟨s, hinvokes, hnew⟩ := h
  cases hinvokes with
  | @path p flag r c htarget =>
    have haccess := mem_log_access_of_not_knows (w := w) htarget hnew
    cases p with
    | root | step => exact haccess
    | _ => cases htarget
  | @call callee operands flag r c values htarget hvalues =>
    change _ ∈ ((Expr.call callee operands).evaluate w flag r).2.log
    rw [Expr.evaluate_call, htarget]
    simp only [Runner.apply, hvalues]
    exact mem_log_invoke_iff.2 (Or.inr ⟨hnew, rfl, rfl, rfl⟩)

/-- **What an evaluation calls is what the frames that it meets call.** -/
theorem mem_log_result_iff : .call key c args ∈ (f.result w).2.log ↔
    .call key c args ∈ f.runner.log ∨ ∃ g, f.Meets w g ∧ g.Calls w key c args := by
  refine ⟨fun h => ?_, ?_⟩
  · by_cases hr : .call key c args ∈ f.runner.log
    · exact Or.inl hr
    · exact Or.inr (exists_meets_of_adds ⟨hr, h⟩)
  · rintro (h | ⟨g, hmeets, hcalls⟩)
    · obtain ⟨events, ds, hasks⟩ := closed_asks.evaluate (w := w) f.expr f.flag f.runner
      exact hasks.log ▸ List.mem_append_left events h
    · obtain ⟨-, events, ds, hasks⟩ := closed_asks.meets hmeets
      exact hasks.log ▸ List.mem_append_left events hcalls.mem_log

end Frame

end FilterQuery
