import FilterQuery.Proofs.Evaluation.Prompt

/-!
# Proofs/Evaluation/Transparency — what is remembered does not show

    runOnce   one pass, each capability called once per key, answers kept in the memo
    denote    no memo: every site calls the capability it comes to

In a world that defers nothing and whose answers are those of a `Reference`, the memo only saves
calls: **a single pass has the answer of the reference** (`runOnce_result_eq_denote`).  Such a world
is its own prompt world (`prompt_eq_self`), so this is what `holds_prompt` says of it.
-/

namespace FilterQuery

variable {σ : Type} {w : World σ} {ref : Reference}

namespace World

/-- Hosts have the members of the reference and capabilities its answers, all of them at once,
whatever state the world is in. -/
structure AnswersAtOnce (w : World σ) (ref : Reference) : Prop where
  lookup : ∀ h name s, (w.lookup h name s).1 = ref.member h name
  call : ∀ c args s, (w.call c args s).1 = .immediate (ref.answer c args)

/-- **A world that defers nothing is its own prompt world.** -/
theorem AnswersAtOnce.prompt_eq_self (h : w.AnswersAtOnce ref) : w.prompt = w := by
  have hcall : w.prompt.call = w.call := by
    funext c args s
    rw [prompt]
    refine Prod.ext ?_ ?_
    · dsimp only
      rw [h.call, Outcome.deliver]
    · dsimp only
      rw [h.call, Outcome.deliver]
  cases w
  exact congrArg (World.mk · _) hcall

theorem AnswersAtOnce.follows (h : w.AnswersAtOnce ref) : w.Follows ref where
  lookup := h.lookup
  call c args s t := by rw [h.call, Outcome.deliver]

end World

namespace Query

open FilterQuery.Expr

/-- **The memo is transparent in a single pass.**  For every query that parses and calls what has
one key with one list of arguments only, and every world that answers at once and always in the same
way, the answer is that of the reference: members looked up from the context on, every capability
called where it is met, null for the parts of values and for arguments that are absent, comparisons
with an absent side false, and chains from left to right up to what decides them. -/
theorem runOnce_result_eq_denote (hw : w.AnswersAtOnce ref) (q : Query) (e : Expr)
    (h : q.parse = .ok e) (hcoherent : e.Coherent) (world : σ) :
    (q.runOnce w ref.context world).result = .ok (Reference.truthy (ref.denote e)) := by
  have hstart : (Runner.start ref.context world).Sound ref e :=
    Runner.sound_start ref.context world ref.member ref.answer
  have hfollows : w.prompt.Follows ref := hw.prompt_eq_self.symm ▸ hw.follows
  obtain ⟨hnone, hanswer⟩ := holds_prompt hfollows (q.isCondition h) hcoherent hstart rfl
  rw [hw.prompt_eq_self] at hnone hanswer
  rw [runOnce, h]
  dsimp only
  rw [hnone]
  exact congrArg Except.ok hanswer

/-- The query `k(1).v = k(1).v`, which comes to one call twice. -/
def twiceQuery : Query where
  source := "k(1).v = k(1).v"
  tokens := [⟨.segment, "k", 0⟩, ⟨.punct .openParen, "(", 1⟩, ⟨.literal .number, "1", 2⟩,
    ⟨.punct .closeParen, ")", 3⟩, ⟨.punct .period, ".", 4⟩, ⟨.segment, "v", 5⟩,
    ⟨.comparator .equal, "=", 7⟩, ⟨.segment, "k", 9⟩, ⟨.punct .openParen, "(", 10⟩,
    ⟨.literal .number, "1", 11⟩, ⟨.punct .closeParen, ")", 12⟩, ⟨.punct .period, ".", 13⟩,
    ⟨.segment, "v", 14⟩, ⟨.endOfInput, "", 15⟩]
  ofText_source := by with_unfolding_all rfl

/-- The value of both sides of `twiceQuery`. -/
def twiceSide : Expr :=
  .step (.call (.root "k") [.literal (.int 1) "1"]) "v"

/-- The tree of `twiceQuery`. -/
def twiceExpr : Expr :=
  .comparison twiceSide .equal twiceSide

theorem coherent_twiceExpr : twiceExpr.Coherent := by
  have hsites : twiceSide.sites = [twiceSide, .call (.root "k") [.literal (.int 1) "1"]] := rfl
  intro p hp q hq hkey
  have hmem : ∀ p ∈ twiceExpr.sites, p ∈ twiceSide.sites := fun p hp =>
    (List.mem_append.1 hp).elim id id
  replace hp := hmem p hp
  replace hq := hmem q hq
  rw [hsites] at hp hq
  simp only [List.mem_cons, List.not_mem_nil, or_false] at hp hq
  rcases hp with rfl | rfl <;> rcases hq with rfl | rfl
  · rfl
  · exact absurd hkey (by decide)
  · exact absurd hkey (by decide)
  · rfl

/-- A reference in which capability 0 answers with an object that repeats its arguments. -/
def echoReference : Reference where
  context := some (.ofPairs [("k", .capability ⟨0⟩)])
  member _ _ := none
  answer _ args := .ofPairs [("v", .array args)]

/-- A world that answers like `echoReference` and counts the calls. -/
def echoWorld : World Nat where
  call _ args n := (.immediate (.ofPairs [("v", .array args)]), n + 1)
  lookup _ _ n := (none, n)

theorem runOnce_twiceQuery_result :
    echoWorld.AnswersAtOnce echoReference ∧ twiceQuery.parse = .ok twiceExpr ∧
      twiceExpr.Coherent ∧ echoReference.denote twiceExpr = some (.bool true) ∧
      let once := twiceQuery.runOnce echoWorld echoReference.context 0
      once.result = .ok true ∧ once.runner.world = 1 := by
  have hw : echoWorld.AnswersAtOnce echoReference := ⟨fun _ _ _ => rfl, fun _ _ _ => rfl⟩
  have hparse : twiceQuery.parse = .ok twiceExpr := by with_unfolding_all rfl
  have hdenote : echoReference.denote twiceExpr = some (.bool true) := by with_unfolding_all rfl
  have hresult := runOnce_result_eq_denote hw twiceQuery twiceExpr hparse coherent_twiceExpr 0
  rw [hdenote] at hresult
  exact ⟨hw, hparse, coherent_twiceExpr, hdenote, hresult, by with_unfolding_all rfl⟩

end Query

end FilterQuery
