import Mathlib.Data.List.Basic
import Mathlib.Data.List.TakeWhile
import SourceScribe.Proofs.Acceptance

/-!
# Checking clauses

Children are matched against the rules for clauses from left to right, each rule
taking as many as it can. As long as no two rules are about the same kind this
never takes too many: what rules have taken is the longest beginning of the
children whose kinds can be divided among them. So the check succeeds exactly when
the kinds of all children can be divided among the rules. Otherwise it names the
first rule that needs a clause where the rules in front of it stop, or else the
first child that is left. What a fork needs besides is that its workers are the
leading ones of its clauses.
-/

namespace SourceScribe

namespace ClauseRule

variable {tag? : NodeId → Option Tag} {kind : NodeId → Tag} {tags : List Tag}
  {rule : ClauseRule} {rules more : List ClauseRule}
  {children clauses rest front back taken left : List NodeId}

/-- No two rules are about the same kind. -/
def Distinct (rules : List ClauseRule) : Prop := (rules.map ClauseRule.tag).Nodup

instance (rules : List ClauseRule) : Decidable (Distinct rules) :=
  inferInstanceAs (Decidable (List.Nodup _))

/-- Fewer rules, in order. -/
theorem Distinct.sublist (hd : Distinct rules) (h : more.Sublist rules) : Distinct more :=
  List.Nodup.sublist (h.map _) hd

/-- The other rules. -/
theorem Distinct.tail (hd : Distinct (rule :: rules)) : Distinct rules :=
  hd.sublist (List.sublist_cons_self rule rules)

/-- The first rule is about another kind than the others. -/
theorem Distinct.tag_notMem (hd : Distinct (rule :: rules)) : rule.tag ∉ rules.map tag :=
  (List.nodup_cons.mp hd).1

/-- Clauses that follow rules are of the kinds of these rules. -/
theorem Follows.mem {rules : List ClauseRule} (h : Follows rules tags) :
    ∀ tag ∈ tags, tag ∈ rules.map ClauseRule.tag := by
  induction h with
  | nil => simp
  | cons _ _ ih =>
    intro tag hm
    rcases List.mem_append.mp hm with hm | hm
    · rw [List.eq_of_mem_replicate hm]
      exact List.mem_cons_self
    · exact List.mem_cons_of_mem _ (ih tag hm)

/-- Children follow rules when they all exist and their kinds follow the rules. -/
def Obeys (tag? : NodeId → Option Tag) (rules : List ClauseRule) (children : List NodeId) : Prop :=
  ∃ tags, children.map tag? = tags.map some ∧ Follows rules tags

/-- No rules are followed by no children only. -/
theorem obeys_nil : Obeys tag? [] children ↔ children = [] := by
  constructor
  · rintro ⟨tags, htags, hf⟩
    cases hf
    exact List.map_eq_nil_iff.mp htags
  · rintro rfl
    exact ⟨[], rfl, .nil⟩

/-- The clauses of the first rule come first. -/
theorem obeys_cons : Obeys tag? (rule :: rules) children ↔
    ∃ clauses rest, children = clauses ++ rest ∧ (∀ c ∈ clauses, tag? c = some rule.tag) ∧
      rule.Allows clauses.length ∧ Obeys tag? rules rest := by
  constructor
  · rintro ⟨tags, htags, hf⟩
    cases hf with
    | @cons _ _ n tags hallows hrest =>
      rw [List.map_append, List.map_replicate, List.map_eq_append_iff] at htags
      obtain ⟨clauses, rest, rfl, hclauses, htags⟩ := htags
      obtain ⟨hlength, hkinds⟩ := List.eq_replicate_iff.mp hclauses
      rw [List.length_map] at hlength
      exact ⟨clauses, rest, rfl, fun c hc => hkinds _ (List.mem_map_of_mem hc), hlength ▸ hallows,
        tags, htags, hrest⟩
  · rintro ⟨clauses, rest, rfl, hkinds, hallows, tags, htags, hrest⟩
    refine ⟨List.replicate clauses.length rule.tag ++ tags, ?_, .cons hallows hrest⟩
    rw [List.map_append, List.map_append, List.map_replicate, htags]
    congr 1
    exact List.eq_replicate_iff.mpr ⟨by simp, by simpa using hkinds⟩

/-- No child is of a kind about which there is no rule. -/
theorem Obeys.tag_ne (h : Obeys tag? rules children) (hnew : rule.tag ∉ rules.map ClauseRule.tag) :
    ∀ c ∈ children, tag? c ≠ some rule.tag := by
  obtain ⟨tags, htags, hf⟩ := h
  intro c hc heq
  have hm : some rule.tag ∈ tags.map some := by
    rw [← htags, ← heq]
    exact List.mem_map_of_mem hc
  obtain ⟨tag, hm, htag⟩ := List.mem_map.mp hm
  cases htag
  exact hnew (hf.mem _ hm)

/-- A rule takes some of the leading clauses of its kind. -/
theorem taken_le_run : rule.taken tag? children ≤
    (children.takeWhile fun child => tag? child == some rule.tag).length := by
  unfold taken
  dsimp only
  split <;> omega

/-- A rule takes clauses of its kind. -/
theorem tag_of_mem_take (tag? : NodeId → Option Tag) (rule : ClauseRule)
    (children : List NodeId) :
    ∀ c ∈ children.take (rule.taken tag? children), tag? c = some rule.tag := by
  have hlength : (children.take (rule.taken tag? children)).length ≤
      (children.takeWhile fun child => tag? child == some rule.tag).length :=
    Nat.le_trans (List.length_take_le _ _) taken_le_run
  have hlead := List.prefix_of_prefix_length_le (List.take_prefix _ children)
    (List.takeWhile_prefix _) hlength
  exact fun c hc => by simpa using List.mem_takeWhile_imp (hlead.subset hc)

/-- A rule takes as many clauses as it may. -/
theorem le_taken (hkinds : ∀ c ∈ clauses, tag? c = some rule.tag)
    (hfew : rule.repeated = false → clauses.length ≤ 1) :
    clauses.length ≤ rule.taken tag? (clauses ++ rest) := by
  have hrun : clauses.length ≤
      ((clauses ++ rest).takeWhile fun child => tag? child == some rule.tag).length := by
    rw [List.takeWhile_append_of_pos (by simpa using hkinds), List.length_append]
    exact Nat.le_add_right _ _
  unfold taken
  dsimp only
  split
  next => exact hrun
  next hr => exact Nat.le_min.mpr ⟨hrun, hfew (by simpa using hr)⟩

/-- A rule that need not find a clause, or finds one, allows what it takes. -/
theorem allows_taken (hfound : rule.required = true → rule.taken tag? children ≠ 0) :
    rule.Allows (rule.taken tag? children) := by
  refine ⟨hfound, fun hr => ?_⟩
  simp only [taken, hr, Bool.false_eq_true, if_false]
  exact Nat.min_le_right _ _

/-- A rule takes no more than there is. -/
theorem taken_le (tag? : NodeId → Option Tag) (rule : ClauseRule) (children : List NodeId) :
    rule.taken tag? children ≤ children.length :=
  Nat.le_trans taken_le_run (List.takeWhile_prefix _).length_le

/-- A rule takes nothing exactly if the first child is of another kind. -/
theorem taken_eq_zero :
    rule.taken tag? children = 0 ↔ ∀ c ∈ children.head?, tag? c ≠ some rule.tag := by
  cases children with
  | nil => simp [taken]
  | cons c rest =>
    by_cases hc : tag? c = some rule.tag
    · by_cases hr : rule.repeated = true <;> simp [taken, hc, hr]
    · simp [taken, hc]

/-- Where clauses of a rule are followed by children of other kinds, the rule takes no
more than these clauses. -/
theorem length_eq_taken (hle : clauses.length ≤ rule.taken tag? (clauses ++ front ++ back))
    (hne : ∀ c ∈ front, tag? c ≠ some rule.tag) :
    clauses.length = rule.taken tag? (clauses ++ front ++ back) ∨ front = [] := by
  have hkinds := tag_of_mem_take tag? rule (clauses ++ front ++ back)
  generalize rule.taken tag? (clauses ++ front ++ back) = n at hle hkinds
  cases front with
  | nil => exact .inr rfl
  | cons c front =>
    left
    by_contra hn
    obtain ⟨k, rfl⟩ : ∃ k, n = clauses.length + (k + 1) := ⟨n - clauses.length - 1, by omega⟩
    refine hne c List.mem_cons_self (hkinds c ?_)
    rw [List.append_assoc, List.take_length_add_append, List.cons_append, List.take_succ_cons]
    simp

/-- Rules take some of the children and leave the others: what they take is the longest
beginning of the children that follows them. -/
structure Consumes (tag? : NodeId → Option Tag) (rules : List ClauseRule)
    (children taken left : List NodeId) : Prop where
  /-- Every child is taken or left. -/
  whole : children = taken ++ left
  /-- What is taken follows the rules. -/
  follows : Obeys tag? rules taken
  /-- No longer beginning follows them. -/
  longest : ∀ front back, children = front ++ back → Obeys tag? rules front →
    front.length ≤ taken.length

/-- The rule needs a clause and finds none where the rules in front of it stop. -/
def Misses (tag? : NodeId → Option Tag) (rules : List ClauseRule) (children : List NodeId)
    (rule : ClauseRule) : Prop :=
  ∃ before after taken left, rules = before ++ rule :: after ∧
    Consumes tag? before children taken left ∧ rule.required = true ∧
      ∀ c ∈ left.head?, tag? c ≠ some rule.tag

/-- No rules take nothing. -/
theorem consumes_nil (tag? : NodeId → Option Tag) (children : List NodeId) :
    Consumes tag? [] children [] children where
  whole := rfl
  follows := obeys_nil.mpr rfl
  longest _ _ _ h := Nat.le_of_eq (congrArg List.length (obeys_nil.mp h))

/-- The first rule takes what it can, and the others go on behind that. -/
theorem Consumes.cons (hd : Distinct (rule :: rules))
    (hfound : rule.required = true → rule.taken tag? children ≠ 0)
    (h : Consumes tag? rules (children.drop (rule.taken tag? children)) taken left) :
    Consumes tag? (rule :: rules) children
      (children.take (rule.taken tag? children) ++ taken) left where
  whole := by rw [List.append_assoc, ← h.whole, List.take_append_drop]
  follows := by
    refine obeys_cons.mpr ⟨_, taken, rfl, tag_of_mem_take tag? rule children, ?_, h.follows⟩
    rw [List.length_take_of_le (taken_le tag? rule children)]
    exact allows_taken hfound
  longest front back hwhole hobeys := by
    obtain ⟨clauses, rest, rfl, hkinds, hallows, hrest⟩ := obeys_cons.mp hobeys
    have hne := hrest.tag_ne hd.tag_notMem
    subst hwhole
    have hle : clauses.length ≤ rule.taken tag? (clauses ++ rest ++ back) := by
      rw [List.append_assoc]
      exact le_taken hkinds hallows.2
    have hlength := List.length_take_of_le (taken_le tag? rule (clauses ++ rest ++ back))
    rw [List.length_append, List.length_append, hlength]
    rcases length_eq_taken hle hne with hn | rfl
    · have hdrop : (clauses ++ rest ++ back).drop (rule.taken tag? (clauses ++ rest ++ back)) =
          rest ++ back := by
        rw [List.append_assoc] at hn ⊢
        exact List.drop_left' hn
      exact Nat.add_le_add hle (h.longest rest back hdrop hrest)
    · rw [List.length_nil]
      omega

/-- What rules take begins with all that the first of them can take. -/
theorem Consumes.uncons (hd : Distinct (rule :: rules))
    (h : Consumes tag? (rule :: rules) children taken left) :
    (rule.required = true → rule.taken tag? children ≠ 0) ∧
      Consumes tag? rules (children.drop (rule.taken tag? children))
        (taken.drop (rule.taken tag? children)) left := by
  obtain ⟨clauses, rest, rfl, hkinds, hallows, hrest⟩ := obeys_cons.mp h.follows
  have hne := hrest.tag_ne hd.tag_notMem
  have hle : clauses.length ≤ rule.taken tag? (clauses ++ rest ++ left) := by
    rw [List.append_assoc]
    exact le_taken hkinds hallows.2
  obtain rfl := h.whole
  have hn : clauses.length = rule.taken tag? (clauses ++ rest ++ left) := by
    rcases length_eq_taken hle hne with hn | rfl
    · exact hn
    · -- What the first rule can take would follow the rules as well.
      have hlength := List.length_take_of_le (taken_le tag? rule (clauses ++ [] ++ left))
      have hobeys : Obeys tag? (rule :: rules)
          ((clauses ++ [] ++ left).take (rule.taken tag? (clauses ++ [] ++ left))) := by
        refine obeys_cons.mpr ⟨_, [], (List.append_nil _).symm, tag_of_mem_take tag? rule _, ?_,
          hrest⟩
        rw [hlength]
        exact allows_taken fun hr hz => hallows.1 hr (Nat.le_zero.mp (hz ▸ hle))
      have hlongest := h.longest _ _ (List.take_append_drop _ _).symm hobeys
      rw [hlength, List.append_nil] at hlongest
      rw [List.append_nil] at hle ⊢
      exact Nat.le_antisymm hle hlongest
  have hdrop : (clauses ++ rest ++ left).drop clauses.length = rest ++ left := by
    rw [List.append_assoc, List.drop_left]
  rw [← hn, hdrop, List.drop_left]
  refine ⟨hallows.1, rfl, hrest, fun front back hwhole hfront => ?_⟩
  have hlongest := h.longest (clauses ++ front) back
    (by rw [List.append_assoc, hwhole, List.append_assoc])
    (obeys_cons.mpr ⟨clauses, front, rfl, hkinds, hallows, hfront⟩)
  rw [List.length_append, List.length_append] at hlongest
  exact Nat.le_of_add_le_add_left hlongest

/-- The check goes on with the other rules behind what the first rules take. -/
theorem check_append (hd : Distinct rules) (h : Consumes tag? rules children taken left) :
    check tag? (rules ++ more) children = check tag? more left := by
  induction rules generalizing children taken with
  | nil =>
    have htaken : taken = [] := obeys_nil.mp h.follows
    rw [h.whole, htaken]
    rfl
  | cons rule rules ih =>
    obtain ⟨hfound, hrest⟩ := h.uncons hd
    have hpass : ¬(rule.required && decide (rule.taken tag? children = 0)) = true := by
      simpa using hfound
    rw [List.cons_append, check, if_neg hpass]
    exact ih hd.tail hrest

/-- Rules find what they need, or one of them is the first that does not. -/
theorem consumes_or_misses (tag? : NodeId → Option Tag) (hd : Distinct rules)
    (children : List NodeId) :
    (∃ taken left, Consumes tag? rules children taken left) ∨
      ∃ rule, Misses tag? rules children rule := by
  induction rules generalizing children with
  | nil => exact .inl ⟨_, _, consumes_nil tag? children⟩
  | cons rule rules ih =>
    by_cases hfound : rule.required = true → rule.taken tag? children ≠ 0
    · rcases ih hd.tail (children.drop (rule.taken tag? children)) with
        ⟨taken, left, h⟩ | ⟨missed, before, after, taken, left, rfl, h, hmissed⟩
      · exact .inl ⟨_, left, h.cons hd hfound⟩
      · have hbefore : Distinct (rule :: before) :=
          hd.sublist ((List.sublist_append_left before _).cons_cons rule)
        exact .inr ⟨missed, rule :: before, after, _, left, rfl, h.cons hbefore hfound, hmissed⟩
    · obtain ⟨hr, hzero⟩ : rule.required = true ∧ rule.taken tag? children = 0 := by
        simpa using hfound
      exact .inr ⟨rule, [], rules, [], children, rfl, consumes_nil tag? children, hr,
        taken_eq_zero.mp hzero⟩

/-- The check names the first rule that needs a clause and finds none. -/
theorem Misses.check (hd : Distinct rules) (h : Misses tag? rules children rule) :
    check tag? rules children = .error (.missing (rule.tag.name ++ " clause")) := by
  obtain ⟨before, after, taken, left, rfl, h, hr, hnone⟩ := h
  have hbefore : Distinct before := hd.sublist (List.sublist_append_left before _)
  rw [check_append hbefore h, ClauseRule.check, taken_eq_zero.mpr hnone, if_pos (by simp [hr])]

/-- The check names the first child that is left when all rules have found what they
need. -/
theorem Consumes.check (hd : Distinct rules) (h : Consumes tag? rules children taken left) :
    check tag? rules children = check tag? [] left := by
  rw [← check_append hd h, List.append_nil]

/-- The check succeeds exactly when the children follow the rules. -/
theorem check_eq_ok_iff (hd : Distinct rules) :
    check tag? rules children = .ok () ↔ Obeys tag? rules children := by
  constructor
  · intro h
    rcases consumes_or_misses tag? hd children with ⟨taken, left, hc⟩ | ⟨rule, hm⟩
    · rw [hc.check hd] at h
      cases left with
      | nil =>
        have hwhole := hc.whole
        rw [List.append_nil] at hwhole
        exact hwhole ▸ hc.follows
      | cons c left => cases h
    · rw [hm.check hd] at h
      cases h
  · intro h
    have hc : Consumes tag? rules children children [] := by
      refine ⟨(List.append_nil _).symm, h, fun front back hwhole _ => ?_⟩
      rw [hwhole, List.length_append]
      exact Nat.le_add_right _ _
    rw [hc.check hd]
    rfl

/-- The check fails with the first rule that needs a clause and finds none, or else with
the first child that is left. -/
theorem check_eq_error_iff (hd : Distinct rules) {fault : Fault} :
    check tag? rules children = .error fault ↔
      (∃ rule, Misses tag? rules children rule ∧
        fault = .missing (rule.tag.name ++ " clause")) ∨
      ∃ taken c left, Consumes tag? rules children taken (c :: left) ∧
        fault = .unexpectedClause (tag? c) c := by
  constructor
  · intro h
    rcases consumes_or_misses tag? hd children with ⟨taken, left, hc⟩ | ⟨rule, hm⟩
    · rw [hc.check hd] at h
      cases left with
      | nil => cases h
      | cons c left =>
        cases h
        exact .inr ⟨taken, c, left, hc, rfl⟩
    · rw [hm.check hd] at h
      cases h
      exact .inl ⟨rule, hm, rfl⟩
  · rintro (⟨rule, hm, rfl⟩ | ⟨taken, c, left, hc, rfl⟩)
    · exact hm.check hd
    · rw [hc.check hd]
      rfl

/-- Children of known kinds follow rules exactly when their kinds do. -/
theorem obeys_iff_follows (hk : ∀ id ∈ children, tag? id = some (kind id)) :
    Obeys tag? rules children ↔ Follows rules (children.map kind) := by
  have hkinds : children.map tag? = (children.map kind).map some := by
    rw [List.map_map]
    exact List.map_congr_left hk
  constructor
  · rintro ⟨tags, htags, hf⟩
    rw [hkinds] at htags
    rwa [List.map_injective_iff.mpr (fun _ _ => Option.some.inj) htags]
  · exact fun hf => ⟨_, hkinds, hf⟩

/-- The check of clauses succeeds exactly when they follow the rules. -/
theorem check_eq_ok {rules : List ClauseRule} (hd : Distinct rules) {ids : List NodeId}
    (hk : ∀ id ∈ ids, tag? id = some (kind id)) :
    check tag? rules ids = .ok () ↔ Follows rules (ids.map kind) :=
  (check_eq_ok_iff hd).trans (obeys_iff_follows hk)

/-- What the check of the clauses of a node finds out. -/
structure Recognized (s : Setting) (rules : List ClauseRule) : Prop where
  /-- It succeeds exactly when the children follow the rules. -/
  succeeds : check s.tag? rules s.children = .ok () ↔ Obeys s.tag? rules s.children
  /-- It fails with the first rule that needs a clause and finds none, or else with the
  first child that is left. -/
  fails : ∀ fault, check s.tag? rules s.children = .error fault ↔
    (∃ rule, Misses s.tag? rules s.children rule ∧
      fault = .missing (rule.tag.name ++ " clause")) ∨
    ∃ taken c left, Consumes s.tag? rules s.children taken (c :: left) ∧
      fault = .unexpectedClause (s.tag? c) c

end ClauseRule

namespace Grammar

variable {s : Setting}

/-- A fork is split into its workers and at most two clauses behind them. -/
structure ForkSplit (s : Setting) : Prop where
  /-- The fork is written by its workers and then by what stands behind them. -/
  script : forkJoinStatement s =
    .text "fork " :: Script.block (forkWorkers s) ++ [.group (.led " ") (forkRest s)]
  /-- No child is left out. -/
  whole : forkWorkers s ++ forkRest s = s.children
  /-- The workers stand in front, and no other child does. -/
  workers : forkWorkers s = s.children.filter fun c => s.tag? c == some .workerDeclaration
  /-- Behind them the results are waited for at most once, and then at most once with a
  time limit. -/
  rest : ∃ join timeout : Option NodeId, forkRest s = join.toList ++ timeout.toList ∧
    (∀ c ∈ join, s.tag? c = some .joinStatement) ∧
      ∀ c ∈ timeout, s.tag? c = some .timeoutStatement

/-- Entries that do not pass a test are left behind entries that do. -/
theorem dropWhile_append_of_neg {p : NodeId → Bool} {front back : List NodeId}
    (hfront : ∀ a ∈ front, p a = true) (hback : ∀ a ∈ back, p a = false) :
    (front ++ back).dropWhile p = back := by
  rw [List.dropWhile_append_of_pos hfront]
  cases back with
  | nil => rfl
  | cons a back => exact List.dropWhile_cons_of_neg (by simp [hback a List.mem_cons_self])

/-- Behind the leading members of a list that have a property there are none if
they all lead. -/
theorem dropWhile_eq_filter {α : Type} {p : α → Bool} {l : List α}
    (h : ∀ a ∈ l.dropWhile p, p a = false) :
    l.takeWhile p = l.filter p ∧ l.dropWhile p = l.filter fun a => !p a := by
  have hleads : ∀ a ∈ l.takeWhile p, p a = true := fun a ha => List.mem_takeWhile_imp ha
  have hall : l.filter p = (l.takeWhile p).filter p ++ (l.dropWhile p).filter p := by
    rw [← List.filter_append, List.takeWhile_append_dropWhile]
  have hnone : (l.filter fun a => !p a) =
      ((l.takeWhile p).filter fun a => !p a) ++ (l.dropWhile p).filter fun a => !p a := by
    rw [← List.filter_append, List.takeWhile_append_dropWhile]
  constructor
  · rw [hall, List.filter_eq_self.mpr hleads, List.filter_eq_nil_iff.mpr (by simpa using h),
      List.append_nil]
  · rw [hnone, List.filter_eq_nil_iff.mpr (by simpa using hleads),
      List.filter_eq_self.mpr (by simpa using h), List.nil_append]

/-- A list of at most one entry. -/
theorem exists_toList {l : List NodeId} (h : l.length ≤ 1) : ∃ o : Option NodeId, l = o.toList := by
  match l, h with
  | [], _ => exact ⟨none, rfl⟩
  | [a], _ => exact ⟨some a, rfl⟩

/-- What stands behind the workers of a fork follows the other rules. -/
theorem obeys_forkRest (h : ClauseRule.Obeys s.tag? forkJoinClauses s.children) :
    ClauseRule.Obeys s.tag? [.optional .joinStatement, .optional .timeoutStatement] (forkRest s) ∧
      ∀ c ∈ forkRest s, (s.tag? c == some .workerDeclaration) = false := by
  obtain ⟨workers, rest, hwhole, hworkers, -, hrest⟩ := ClauseRule.obeys_cons.mp h
  have hd : ClauseRule.Distinct forkJoinClauses := by decide
  have hbehind : ∀ c ∈ rest, (s.tag? c == some .workerDeclaration) = false :=
    fun c hc => beq_eq_false_iff_ne.mpr (hrest.tag_ne hd.tag_notMem c hc)
  have heq : forkRest s = rest := by
    rw [forkRest, hwhole]
    exact dropWhile_append_of_neg (fun c hc => beq_iff_eq.mpr (hworkers c hc)) hbehind
  rw [heq]
  exact ⟨hrest, hbehind⟩

/-- The workers of a fork lead its clauses. -/
theorem forkWorkers_eq_filter (h : ClauseRule.Obeys s.tag? forkJoinClauses s.children) :
    (forkWorkers s = s.children.filter fun c => s.tag? c == some .workerDeclaration) ∧
      forkRest s = s.children.filter fun c => !(s.tag? c == some .workerDeclaration) :=
  dropWhile_eq_filter (obeys_forkRest h).2

/-- The children of a fork that follow its rules are split. -/
theorem forkSplit_of_obeys (h : ClauseRule.Obeys s.tag? forkJoinClauses s.children) :
    ForkSplit s where
  script := by
    rw [forkJoinStatement, Script.clauses, (ClauseRule.check_eq_ok_iff (by decide)).mpr h]
    rfl
  whole := List.takeWhile_append_dropWhile
  workers := (forkWorkers_eq_filter h).1
  rest := by
    obtain ⟨joins, rest, hwhole, hjoins, hfew, h⟩ := ClauseRule.obeys_cons.mp (obeys_forkRest h).1
    obtain ⟨timeouts, rest, rfl, htimeouts, hfew', h⟩ := ClauseRule.obeys_cons.mp h
    obtain rfl := ClauseRule.obeys_nil.mp h
    obtain ⟨join, rfl⟩ := exists_toList (hfew.2 rfl)
    obtain ⟨timeout, rfl⟩ := exists_toList (hfew'.2 rfl)
    rw [List.append_nil] at hwhole
    exact ⟨join, timeout, hwhole, fun c hc => hjoins c (Option.mem_toList.mpr hc),
      fun c hc => htimeouts c (Option.mem_toList.mpr hc)⟩

end Grammar

open Grammar in
/-- **The check of clauses accepts exactly what its rules describe.** When no two rules
are about the same kind, it succeeds exactly when the kinds of the children are, rule
by rule, as many of the kind of the rule as the rule allows. Otherwise it names the first
rule that needs a clause and finds none, or else the first child that is left. In a fork
that is accepted the workers are the children in front of where the fork is split. -/
theorem check_recognizes {rules : List ClauseRule} (hd : ClauseRule.Distinct rules)
    (s : Setting) :
    ClauseRule.Recognized s rules ∧
      (ClauseRule.check s.tag? forkJoinClauses s.children = .ok () → ForkSplit s) :=
  ⟨⟨ClauseRule.check_eq_ok_iff hd, fun _ => ClauseRule.check_eq_error_iff hd⟩,
    fun h => forkSplit_of_obeys ((ClauseRule.check_eq_ok_iff (by decide)).mp h)⟩

/-- A fork of two workers with a time limit. -/
def timedFork : Setting where
  ast := { nodes := #[
    { construct := .forkJoinStatement, children := [⟨1⟩, ⟨2⟩, ⟨3⟩] },
    { construct := .workerDeclaration "a", parent := some ⟨0⟩ },
    { construct := .workerDeclaration "b", parent := some ⟨0⟩ },
    { construct := .timeoutStatement "map" "late", parent := some ⟨0⟩ }] }
  options := {}
  id := ⟨0⟩
  node := { construct := .forkJoinStatement, children := [⟨1⟩, ⟨2⟩, ⟨3⟩] }

open Grammar in
/-- The fork is accepted and split; by the rules of a guarded statement it would lack its
first clause. -/
theorem check_recognizes_timedFork :
    ClauseRule.Distinct tryCatchClauses ∧
      ClauseRule.check timedFork.tag? tryCatchClauses timedFork.children =
        .error (.missing "TryStatement clause") ∧
      ClauseRule.check timedFork.tag? forkJoinClauses timedFork.children = .ok () ∧
      ClauseRule.Recognized timedFork tryCatchClauses ∧ ForkSplit timedFork := by
  have hfork : ClauseRule.check timedFork.tag? forkJoinClauses timedFork.children = .ok () := by
    decide
  have hd : ClauseRule.Distinct tryCatchClauses := by decide
  obtain ⟨hrecognized, hsplit⟩ := check_recognizes hd timedFork
  exact ⟨hd, by decide, hfork, hrecognized, hsplit hfork⟩

end SourceScribe
