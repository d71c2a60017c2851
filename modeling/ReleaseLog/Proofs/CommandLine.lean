import ReleaseLog.CommandLine

/-!
# Options put into a command line

An option that disables a rule may stand wherever an option may begin. The command line then gives
the same arguments, with one more rule disabled.
-/

namespace ReleaseLog

open CommandLine

/-! ## Arguments that disable more -/

namespace CommandLine.Refusal

/-- The refusal answers a question, and nothing is wrong with the command line. -/
def IsAnswer (e : Refusal) : Prop :=
  e = .help ∨ e = .version

end CommandLine.Refusal

namespace CommandLine

/-- What is refused is a mistake. -/
def NeverAnswers {α : Type} (x : Except Refusal α) : Prop :=
  ∀ e, x = .error e → ¬ e.IsAnswer

theorem neverAnswers_ok {α : Type} (a : α) : NeverAnswers (.ok a) := by
  simp [NeverAnswers]

theorem NeverAnswers.bind {α β : Type} {x : Except Refusal α} {f : α → Except Refusal β}
    (hx : NeverAnswers x) (hf : ∀ a, NeverAnswers (f a)) : NeverAnswers (x >>= f) := by
  cases x with
  | error e =>
      intro e' he'
      obtain rfl := Except.error.inj he'
      exact hx e rfl
  | ok a => exact hf a

theorem NeverAnswers.mapM {α β : Type} {f : α → Except Refusal β} (hf : ∀ a, NeverAnswers (f a))
    (xs : List α) : NeverAnswers (xs.mapM f) := by
  induction xs with
  | nil => exact neverAnswers_ok []
  | cons x xs ih =>
      rw [List.mapM_cons]
      exact (hf x).bind fun y => ih.bind fun ys => neverAnswers_ok (y :: ys)

theorem neverAnswers_path? (value : Bytes) : NeverAnswers (path? value) := by
  rw [path?]
  split
  · simp [NeverAnswers, Refusal.IsAnswer]
  · exact neverAnswers_ok _

theorem neverAnswers_named? {α : Type} (ofName? : Text → Option α) (value : Bytes) :
    NeverAnswers (named? ofName? value) := by
  rw [named?]
  split
  · exact neverAnswers_ok _
  · simp [NeverAnswers, Refusal.IsAnswer]

theorem neverAnswers_text? (value : Bytes) : NeverAnswers (text? value) := by
  rw [text?]
  split
  · exact neverAnswers_ok _
  · simp [NeverAnswers, Refusal.IsAnswer]

theorem neverAnswers_once (given : Bool) : NeverAnswers (once given) := by
  rw [once]
  split
  · simp [NeverAnswers, Refusal.IsAnswer]
  · exact neverAnswers_ok _

theorem neverAnswers_withFiles (args : Arguments) (words : List Bytes) :
    NeverAnswers (args.withFiles words) :=
  (NeverAnswers.mapM neverAnswers_path? words).bind fun _ => neverAnswers_ok _

theorem neverAnswers_withValue (args : Arguments) (value : Bytes) (k : Slot) :
    NeverAnswers (args.withValue value k) := by
  cases k with
  | config =>
      exact (neverAnswers_once _).bind fun _ => (neverAnswers_path? value).bind fun _ =>
        neverAnswers_ok _
  | format =>
      exact (neverAnswers_once _).bind fun _ => (neverAnswers_named? _ value).bind fun _ =>
        neverAnswers_ok _
  | disable => exact (neverAnswers_named? _ value).bind fun _ => neverAnswers_ok _
  | logLevel =>
      exact (neverAnswers_once _).bind fun _ => (neverAnswers_text? value).bind fun _ =>
        neverAnswers_ok _

/-- Only a word can ask a question, and not what is stored. -/
theorem Scan.neverAnswers_finish (st : Scan) : NeverAnswers st.finish := by
  rw [Scan.finish]
  split
  · exact neverAnswers_ok _
  · exact neverAnswers_withFiles _ _
  · simp [NeverAnswers, Refusal.IsAnswer]
  · exact neverAnswers_withValue _ _ _

end CommandLine

namespace Arguments

variable {off : List Rule} {args more : Arguments}

/-- The same arguments, with these rules disabled as well. -/
def Extends (off : List Rule) (args more : Arguments) : Prop :=
  ∃ disabled, more = { args with disabled := disabled } ∧
    ∀ r, r ∈ disabled ↔ r ∈ args.disabled ∨ r ∈ off

/-- What one command line gives and another one that disables these rules as well. Nothing is said
where the first is refused for a mistake. -/
inductive Follows (off : List Rule) :
    Except Refusal Arguments → Except Refusal Arguments → Prop
  | parsed {args more : Arguments} (h : args.Extends off more) : Follows off (.ok args) (.ok more)
  | same (e : Refusal) : Follows off (.error e) (.error e)
  | refused {e : Refusal} (h : ¬ e.IsAnswer) (o : Except Refusal Arguments) :
      Follows off (.error e) o

theorem Follows.bind {f g : Arguments → Except Refusal Arguments}
    {x y : Except Refusal Arguments} (h : Follows off x y)
    (hfg : ∀ {args more}, Extends off args more → Follows off (f args) (g more)) :
    Follows off (x >>= f) (y >>= g) := by
  cases h with
  | parsed h => exact hfg h
  | same e => exact .same e
  | refused h o => exact .refused h _

theorem Follows.exists_of_ok {o : Except Refusal Arguments} (h : Follows off (.ok args) o) :
    ∃ more, o = .ok more ∧ args.Extends off more := by
  cases h with
  | parsed h => exact ⟨_, rfl, h⟩

theorem Extends.trans {r : Rule} {last : Arguments} (h : Extends off args more)
    (hr : Extends [r] more last) : Extends (r :: off) args last := by
  obtain ⟨disabled, rfl, hdisabled⟩ := h
  obtain ⟨disabled', rfl, hdisabled'⟩ := hr
  refine ⟨disabled', rfl, ?_⟩
  intro s
  rw [hdisabled', hdisabled, List.mem_singleton, List.mem_cons, or_assoc, or_comm (a := s ∈ off)]

theorem Follows.trans {r : Rule} {x y z : Except Refusal Arguments} (h : Follows off x y)
    (hr : Follows [r] y z) : Follows (r :: off) x z := by
  cases h with
  | parsed h =>
      cases hr with
      | parsed hr => exact .parsed (h.trans hr)
  | same e =>
      cases hr with
      | same => exact .same e
      | refused he => exact .refused he z
  | refused he => exact .refused he z

/-- Both go on after the same value, or are refused alike. -/
theorem Follows.after {α : Type} (x : Except Refusal α) {f g : α → Except Refusal Arguments}
    (h : ∀ a, Follows off (f a) (g a)) : Follows off (x >>= f) (x >>= g) := by
  cases x with
  | error e => exact .same e
  | ok a => exact h a

/-! ## Storing arguments -/

theorem Extends.withFiles (h : Extends off args more) (words : List Bytes) :
    Follows off (args.withFiles words) (more.withFiles words) := by
  obtain ⟨disabled, rfl, hdisabled⟩ := h
  exact .after (words.mapM path?) fun _ => .parsed ⟨disabled, rfl, hdisabled⟩

theorem Extends.withSwitch (h : Extends off args more) (k : Switch) :
    Follows off (args.withSwitch k) (more.withSwitch k) := by
  obtain ⟨disabled, rfl, hdisabled⟩ := h
  cases k with
  | help => exact .same .help
  | version => exact .same .version
  | watch => exact .after (once args.watch) fun _ => .parsed ⟨disabled, rfl, hdisabled⟩
  | stdio => exact .after (once args.stdio) fun _ => .parsed ⟨disabled, rfl, hdisabled⟩

theorem Extends.withValue (h : Extends off args more) (value : Bytes) (k : Slot) :
    Follows off (args.withValue value k) (more.withValue value k) := by
  obtain ⟨disabled, rfl, hdisabled⟩ := h
  cases k with
  | config =>
      exact .after (once args.config.isSome) fun _ => .after (path? value) fun _ =>
        .parsed ⟨disabled, rfl, hdisabled⟩
  | format =>
      exact .after (once args.format.isSome) fun _ => .after (named? Format.ofName? value) fun _ =>
        .parsed ⟨disabled, rfl, hdisabled⟩
  | disable =>
      refine .after (named? Rule.ofName? value) fun r => .parsed ⟨disabled ++ [r], rfl, ?_⟩
      intro s
      rw [List.mem_append, List.mem_append, hdisabled, or_right_comm]
  | logLevel =>
      exact .after (once args.logLevel.isSome) fun _ => .after (text? value) fun _ =>
        .parsed ⟨disabled, rfl, hdisabled⟩

theorem withFiles_append (args : Arguments) (xs ys : List Bytes) :
    args.withFiles (xs ++ ys) = args.withFiles xs >>= (·.withFiles ys) := by
  simp only [Arguments.withFiles, List.mapM_append, bind_assoc, pure_bind, List.append_assoc]

end Arguments

/-! ## Scanning -/

namespace CommandLine.Scan

variable {off : List Rule} {st next : Scan} {args more : Arguments} {e : Refusal}

def Settled (st : Scan) : Prop :=
  ∀ k, st.pending ≠ .slot k none

def outcome (st : Scan) (words : List Bytes) : Except Refusal Arguments :=
  words.foldlM step st >>= finish

theorem outcome_append (st : Scan) (front back : List Bytes) :
    st.outcome (front ++ back) = front.foldlM step st >>= (·.outcome back) := by
  simp only [outcome, List.foldlM_append, bind_assoc]

/-- What is stored by the next word, and where the scan goes on. -/
theorem outcome_cons (st : Scan) (word : Bytes) (words : List Bytes) :
    st.outcome (word :: words) =
      if st.onlyFiles then st.addFile word >>= (·.outcome words)
      else
        match Word.ofBytes word with
        | .separator => outcome { st with onlyFiles := true } words
        | .unknown => .error .unknownArgument
        | .valuedSwitch => .error .unexpectedValue
        | .switch k => st.finish >>= (·.withSwitch k) >>= fun args =>
            outcome { st with stored := args, pending := .nothing } words
        | .slot k (some value) => st.finish >>= (·.withValue value k) >>= fun args =>
            outcome { st with stored := args, pending := .nothing } words
        | .slot k none => st.finish >>= fun args =>
            outcome { st with stored := args, pending := .slot k none } words
        | .plain value =>
          match st.pending with
          | .slot k none => outcome { st with pending := .slot k (some value) } words
          | _ => st.addFile value >>= (·.outcome words) := by
  rw [outcome, List.foldlM_cons, step]
  split
  · rw [bind_assoc]
    rfl
  · cases Word.ofBytes word with
    | separator => rfl
    | switch k => simp only [bind_assoc, pure_bind]; rfl
    | valuedSwitch => rfl
    | slot k value => cases value <;> simp only [bind_assoc, pure_bind] <;> rfl
    | unknown => rfl
    | plain value =>
        cases hpending : st.pending with
        | slot k value => cases value <;> simp only [bind_assoc] <;> rfl
        | _ => simp only [bind_assoc]; rfl

/-- Where no slot waits, a word that is no option is a file. -/
theorem match_pending_of_settled {α : Type} (hst : st.Settled) (f : Slot → α) (a : α) :
    (match st.pending with
      | .slot k none => f k
      | _ => a) = a := by
  split
  · rename_i k hpending
    exact (hst k hpending).elim
  · rfl

/-! ## One more file -/

/-- A file is stored after what is pending, unless that is refused. -/
theorem addFile_of_ok (h : st.finish = .ok args) (word : Bytes) :
    ∃ next, st.addFile word = .ok next ∧ next.Settled ∧ next.onlyFiles = st.onlyFiles ∧
      next.finish = args.withFiles [word] := by
  rw [addFile]
  split
  · rename_i words hpending
    rw [finish, hpending] at h
    have hwords : st.stored.withFiles words = .ok args := h
    refine ⟨_, rfl, by simp [Settled], rfl, ?_⟩
    exact (Arguments.withFiles_append _ _ _).trans (by rw [hwords]; rfl)
  · rw [h]
    exact ⟨_, rfl, by simp [Settled], rfl, rfl⟩

theorem addFile_of_error (h : st.finish = .error e) (word : Bytes) :
    st.addFile word = .error e ∨
      ∃ next, st.addFile word = .ok next ∧ next.Settled ∧ next.finish = .error e := by
  rw [addFile]
  split
  · rename_i words hpending
    rw [finish, hpending] at h
    have hwords : st.stored.withFiles words = .error e := h
    refine .inr ⟨_, rfl, by simp [Settled], ?_⟩
    exact (Arguments.withFiles_append _ _ _).trans (by rw [hwords]; rfl)
  · rw [h]
    exact .inl rfl

/-- What is pending and wrong is refused at the latest at the end, whatever follows. -/
theorem outcome_of_finish_error (hst : st.Settled) (h : st.finish = .error e)
    (words : List Bytes) : ∃ e', st.outcome words = .error e' ∧ ¬ e'.IsAnswer := by
  have he : ¬ e.IsAnswer := neverAnswers_finish st e h
  induction words generalizing st with
  | nil => exact ⟨e, h, he⟩
  | cons word words ih =>
      have hfile : ∀ word, ∃ e', (st.addFile word >>= (·.outcome words)) = .error e' ∧
          ¬ e'.IsAnswer := by
        intro word
        rcases addFile_of_error h word with hadd | ⟨next, hadd, hnext, hfinish⟩
        · exact ⟨e, by rw [hadd]; rfl, he⟩
        · obtain ⟨e', houtcome, he'⟩ := ih hnext hfinish
          exact ⟨e', by rw [hadd]; exact houtcome, he'⟩
      rw [outcome_cons]
      split
      · exact hfile word
      · cases Word.ofBytes word with
        | separator =>
            have hlast : Settled { st with onlyFiles := true } := hst
            exact ih hlast h
        | switch k => exact ⟨e, by rw [h]; rfl, he⟩
        | valuedSwitch => exact ⟨_, rfl, by simp [Refusal.IsAnswer]⟩
        | slot k value => cases value <;> exact ⟨e, by rw [h]; rfl, he⟩
        | unknown => exact ⟨_, rfl, by simp [Refusal.IsAnswer]⟩
        | plain value =>
            dsimp only
            rw [match_pending_of_settled hst]
            exact hfile value

/-! ## Two scans side by side -/

/-- A scan and another one that went by more options, both between two arguments or both in front of
the value of a slot. -/
inductive Follows (off : List Rule) : Scan → Scan → Prop
  | settled {st next : Scan} (hst : st.Settled) (hnext : next.Settled)
      (honly : next.onlyFiles = st.onlyFiles) (h : Arguments.Follows off st.finish next.finish) :
      Follows off st next
  | waiting {args more : Arguments} (h : args.Extends off more) (k : Slot) (onlyFiles : Bool) :
      Follows off ⟨args, .slot k none, onlyFiles⟩ ⟨more, .slot k none, onlyFiles⟩

theorem Follows.stored (h : args.Extends off more) (onlyFiles : Bool) :
    Follows off ⟨args, .nothing, onlyFiles⟩ ⟨more, .nothing, onlyFiles⟩ :=
  .settled (by simp [Settled]) (by simp [Settled]) rfl (.parsed h)

/-- One word after two arguments that are not refused. -/
theorem outcome_cons_of_ok (hst : st.Settled) (hnext : next.Settled)
    (honly : next.onlyFiles = st.onlyFiles) (hfinish : st.finish = .ok args)
    (hmore : next.finish = .ok more) (h : args.Extends off more) {words : List Bytes}
    (ih : ∀ {st next : Scan}, Follows off st next →
      Arguments.Follows off (st.outcome words) (next.outcome words)) (word : Bytes) :
    Arguments.Follows off (st.outcome (word :: words)) (next.outcome (word :: words)) := by
  have hfile : ∀ word, Arguments.Follows off (st.addFile word >>= (·.outcome words))
      (next.addFile word >>= (·.outcome words)) := by
    intro word
    obtain ⟨st', hadd, hst', honly', hfinish'⟩ := addFile_of_ok hfinish word
    obtain ⟨next', hadd', hnext', honly'', hmore'⟩ := addFile_of_ok hmore word
    rw [hadd, hadd']
    refine ih (.settled hst' hnext' (by rw [honly', honly'', honly]) ?_)
    rw [hfinish', hmore']
    exact h.withFiles [word]
  rw [outcome_cons, outcome_cons, honly]
  split
  · exact hfile word
  · cases Word.ofBytes word with
    | separator =>
        have hlast : Settled { st with onlyFiles := true } := hst
        have hfollows : Arguments.Follows off (finish { st with onlyFiles := true })
            (finish { next with onlyFiles := true }) := by
          rw [show finish { st with onlyFiles := true } = .ok args from hfinish,
            show finish { next with onlyFiles := true } = .ok more from hmore]
          exact .parsed h
        exact ih (.settled hlast hnext rfl hfollows)
    | switch k =>
        rw [hfinish, hmore]
        exact (h.withSwitch k).bind fun h => ih (.stored h _)
    | valuedSwitch => exact .same .unexpectedValue
    | slot k value =>
        rw [hfinish, hmore]
        cases value with
        | none => exact ih (.waiting h k _)
        | some value => exact (h.withValue value k).bind fun h => ih (.stored h _)
    | unknown => exact .same .unknownArgument
    | plain value =>
        dsimp only
        rw [match_pending_of_settled hst, match_pending_of_settled hnext]
        exact hfile value

theorem Follows.outcome (h : Follows off st next) (words : List Bytes) :
    Arguments.Follows off (st.outcome words) (next.outcome words) := by
  induction words generalizing st next with
  | nil =>
      cases h with
      | settled _ _ _ h => exact h
      | waiting => exact .same .invalidValue
  | cons word words ih =>
      cases h with
      | settled hst hnext honly h =>
          cases hfinish : st.finish with
          | error e =>
              obtain ⟨e', houtcome, he'⟩ := outcome_of_finish_error hst hfinish (word :: words)
              rw [houtcome]
              exact .refused he' _
          | ok args =>
              rw [hfinish] at h
              obtain ⟨more, hmore, hextends⟩ := h.exists_of_ok
              exact outcome_cons_of_ok hst hnext honly hfinish hmore hextends (fun h => ih h) word
      | @waiting args more h k onlyFiles =>
          rw [outcome_cons, outcome_cons]
          split
          · exact .same .invalidValue
          · cases Word.ofBytes word with
            | separator => exact ih (.waiting h k true)
            | switch => exact .same .invalidValue
            | valuedSwitch => exact .same .unexpectedValue
            | slot j value => cases value <;> exact .same .invalidValue
            | unknown => exact .same .unknownArgument
            | plain value =>
                have hvalue := h.withValue value k
                exact ih (.settled (by simp [Settled]) (by simp [Settled]) rfl hvalue)

end CommandLine.Scan

/-! ## Options that disable rules -/

namespace CommandLine

variable {off : List Rule} {words more : List Bytes} {r : Rule}

/-- The words of an option that disables a rule, with its value apart or attached. -/
inductive Disabling (r : Rule) : List Bytes → Prop
  | apart : Disabling r [Utf8.encode "--disable".toList, Utf8.encode r.name]
  | attached : Disabling r [Utf8.encode ("--disable=".toList ++ r.name)]

/-- An option may begin after these words: no slot waits for its value, and no separator was
read. -/
def MayPrecede (front : List Bytes) : Prop :=
  ∀ st, front.foldlM Scan.step {} = .ok st → st.Settled ∧ st.onlyFiles = false

/-- Options that disable these rules are put in, each of them where an option may begin. -/
inductive Inserts : List Rule → List Bytes → List Bytes → Prop
  | nothing (words : List Bytes) : Inserts [] words words
  | option {off : List Rule} {words front back option : List Bytes} {r : Rule}
      (h : Inserts off words (front ++ back)) (hfront : MayPrecede front)
      (hoption : Disabling r option) : Inserts (r :: off) words (front ++ (option ++ back))

theorem named?_name (r : Rule) : named? Rule.ofName? (Utf8.encode r.name) = .ok r := by
  cases r <;> rfl

/-- After an option that disables a rule, that rule is pending or stored. -/
theorem Disabling.exists_outcome {option : List Bytes} (h : Disabling r option) {st : Scan}
    {args : Arguments} (honly : st.onlyFiles = false) (hfinish : st.finish = .ok args)
    (back : List Bytes) :
    ∃ next : Scan, next.Settled ∧ next.onlyFiles = st.onlyFiles ∧
      next.finish = .ok { args with disabled := args.disabled ++ [r] } ∧
      st.outcome (option ++ back) = next.outcome back := by
  have hvalue : args.withValue (Utf8.encode r.name) .disable =
      .ok { args with disabled := args.disabled ++ [r] } := by
    rw [Arguments.withValue, named?_name]
    rfl
  cases h with
  | apart =>
      have hname : Word.ofBytes (Utf8.encode "--disable".toList) = .slot .disable none := by decide
      have hplain : Word.ofBytes (Utf8.encode r.name) = .plain (Utf8.encode r.name) := by
        cases r <;> decide
      refine ⟨⟨args, .slot .disable (some (Utf8.encode r.name)), st.onlyFiles⟩,
        by simp [Scan.Settled], rfl, hvalue, ?_⟩
      have hfirst : st.outcome (Utf8.encode "--disable".toList :: Utf8.encode r.name :: back) =
          Scan.outcome ⟨args, .slot .disable none, st.onlyFiles⟩ (Utf8.encode r.name :: back) := by
        rw [Scan.outcome_cons, hname, hfinish, honly]
        rfl
      refine hfirst.trans ?_
      rw [Scan.outcome_cons, hplain, honly]
      rfl
  | attached =>
      have hname : Word.ofBytes (Utf8.encode ("--disable=".toList ++ r.name)) =
          .slot .disable (some (Utf8.encode r.name)) := by
        cases r <;> decide
      refine ⟨⟨{ args with disabled := args.disabled ++ [r] }, .nothing, st.onlyFiles⟩,
        by simp [Scan.Settled], rfl, rfl, ?_⟩
      rw [List.cons_append, List.nil_append, Scan.outcome_cons, hname, hfinish, honly]
      simp only [Bool.false_eq_true, if_false]
      rw [show (.ok args >>= (·.withValue (Utf8.encode r.name) .disable)) =
        args.withValue (Utf8.encode r.name) .disable from rfl, hvalue]
      rfl

/-- One more option, read between two arguments. -/
theorem Disabling.follows {option : List Bytes} (h : Disabling r option) {st : Scan}
    (hst : st.Settled) (honly : st.onlyFiles = false) (back : List Bytes) :
    Arguments.Follows [r] (st.outcome back) (st.outcome (option ++ back)) := by
  cases hfinish : st.finish with
  | error e =>
      obtain ⟨e', houtcome, he'⟩ := Scan.outcome_of_finish_error hst hfinish back
      rw [houtcome]
      exact .refused he' _
  | ok args =>
      obtain ⟨next, hnext, honly', hmore, houtcome⟩ := h.exists_outcome honly hfinish back
      rw [houtcome]
      refine Scan.Follows.outcome (.settled hst hnext honly' ?_) back
      rw [hfinish, hmore]
      exact .parsed ⟨_, rfl, fun s => by rw [List.mem_append]⟩

theorem ofWords_append (front back : List Bytes) :
    Arguments.ofWords (front ++ back) = front.foldlM Scan.step {} >>= (·.outcome back) :=
  Scan.outcome_append {} front back

/-- With these options a command line gives the same arguments and disables these rules as well. -/
theorem Inserts.follows (h : Inserts off words more) :
    Arguments.Follows off (Arguments.ofWords words) (Arguments.ofWords more) := by
  induction h with
  | nothing words =>
      cases Arguments.ofWords words with
      | error e => exact .same e
      | ok args => exact .parsed ⟨args.disabled, rfl, by simp⟩
  | @option off words front back option r h hfront hoption ih =>
      refine ih.trans ?_
      rw [ofWords_append, ofWords_append]
      cases hscan : front.foldlM Scan.step {} with
      | error e => exact .same e
      | ok st =>
          obtain ⟨hst, honly⟩ := hfront st hscan
          exact hoption.follows hst honly back

end CommandLine

end ReleaseLog
