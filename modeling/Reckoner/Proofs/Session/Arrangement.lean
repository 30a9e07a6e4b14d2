import Reckoner.Proofs.Session.Entries

/-!
# Base cases and body in any order

A function can be given its base cases and its body by lines in any order.  What one of these lines
leaves is `c.installed name f`, where `c` is the context before all of them: making a name another
function hides that it was made one before (`Context.installed_installed`).  So only the function
`f` is to be followed: its table gets the entries of the base cases in their order, and a table
does not tell in which order entries at different arguments were put into it
(`Table.putAll_congr`).
-/

namespace Reckoner

/-! ## Tables -/

namespace Table

/-- The table with entries put into it one after the other. -/
def putAll (t : Table) (entries : List (List Number × Number)) : Table :=
  entries.foldl (fun t entry => t.put entry.1 entry.2) t

theorem putAll_append (t : Table) (entries entries' : List (List Number × Number)) :
    t.putAll (entries ++ entries') = (t.putAll entries).putAll entries' :=
  List.foldl_append

theorem find?_putAll_of_filter (t : Table) (key : List Number)
    (entries : List (List Number × Number)) :
    (t.putAll entries).find? key =
      (t.putAll (entries.filter fun entry => entry.1 = key)).find? key := by
  -- an entry at other arguments does not count, so the tables need only agree at the key
  have hkey : ∀ t t' : Table, t.find? key = t'.find? key → (t.putAll entries).find? key =
      (t'.putAll (entries.filter fun entry => entry.1 = key)).find? key := by
    induction entries with
    | nil => exact fun t t' h => h
    | cons entry entries ih =>
      intro t t' h
      by_cases hentry : entry.1 = key
      · rw [List.filter_cons_of_pos (by simpa using hentry)]
        refine ih _ _ ?_
        rw [find?_put, find?_put, h]
      · rw [List.filter_cons_of_neg (by simpa using hentry)]
        refine ih _ _ ?_
        rw [find?_put, if_neg hentry, h]
  exact hkey t t rfl

/-- Only the order of the entries at the same arguments counts. -/
theorem putAll_congr (t : Table) {entries entries' : List (List Number × Number)}
    (h : ∀ key, entries.filter (fun entry => entry.1 = key) =
      entries'.filter (fun entry => entry.1 = key)) : t.putAll entries = t.putAll entries' := by
  refine ext_find? fun key => ?_
  rw [find?_putAll_of_filter, h, ← find?_putAll_of_filter]

theorem adopt_empty (t : Table) : empty.adopt t = t := by
  refine ext_find? fun key => ?_
  rw [find?_adopt, find?_empty, Option.or_none]

end Table

/-! ## Contexts -/

namespace Context

variable {c d : Context} {name : String} {f : UserFunction}

theorem function?_installed (c : Context) (name other : String) (f : UserFunction) :
    (c.installed name f).function? other =
      (if name = other then some (.user f) else c.function? other).map fun g =>
        if refersTo g ((c.setFunction name (.user f)).affected name) then g.forget else g := by
  rw [installed, function?_invalidate, function?_setFunction]

theorem affected_setFunction (c : Context) (name : String) (f g : UserFunction) :
    (c.setFunction name (.user f)).affected name =
      (c.setFunction name (.user g)).affected name := by
  refine affected_congr fun n hn => ?_
  rw [function?_setFunction, function?_setFunction, if_neg hn.symm, if_neg hn.symm]

theorem affected_setFunction_installed (c : Context) (name : String) (f g : UserFunction) :
    ((c.installed name f).setFunction name (.user g)).affected name =
      (c.setFunction name (.user g)).affected name := by
  refine affected_congr fun n hn => ?_
  rw [function?_setFunction, function?_setFunction, if_neg hn.symm, if_neg hn.symm,
    function?_installed, if_neg hn.symm, Option.map_map]
  refine congrArg (fun change => (c.function? n).map change) (funext fun h => ?_)
  show Function.references (if _ then h.forget else h) = h.references
  split
  · cases h <;> rfl
  · rfl

/-- A name that is made another function was as good as never made the one before. -/
theorem installed_installed (c : Context) (name : String) (f g : UserFunction) :
    (c.installed name f).installed name g = c.installed name g := by
  refine ext_of_function? rfl (fun other => ?_) rfl rfl rfl rfl
  rw [function?_installed (c.installed name f), function?_installed c name other g,
    affected_setFunction_installed]
  by_cases hother : name = other
  · rw [if_pos hother, if_pos hother]
  · rw [if_neg hother, if_neg hother, function?_installed, if_neg hother, Option.map_map,
      affected_setFunction c name f g]
    refine congrArg (fun change => (c.function? other).map change) (funext fun h => ?_)
    by_cases hrefers : refersTo h ((c.setFunction name (.user g)).affected name) = true
    · simp [hrefers]
    · simp [hrefers]

theorem user?_installed (c : Context) (name : String) (hf : f.memo = .empty) :
    (c.installed name f).user? name = some f := by
  have hforget : f.forget = f := by rw [UserFunction.forget, ← hf]
  rw [user?_eq_some, function?_installed, if_pos rfl, Option.map_some]
  split
  · rw [Function.forget, hforget]
  · rfl

theorem isTaken_installed (c : Context) {name other : String} (hother : other ≠ name)
    (f : UserFunction) : (c.installed name f).isTaken other = c.isTaken other := by
  unfold isTaken
  rw [hasFunction_eq, hasFunction_eq, function?_installed, if_neg hother.symm, Option.isSome_map]
  rfl

def baseCases (c : Context) (name : String) : Table :=
  ((c.user? name).map UserFunction.baseCases).getD .empty

theorem baseCases_installed (c : Context) (name : String) (hf : f.memo = .empty) :
    (c.installed name f).baseCases name = f.baseCases := by
  rw [baseCases, c.user?_installed name hf]
  rfl

/-- A context that is another one, apart from a function of a name with a number of parameters. -/
structure Varies (c : Context) (name : String) (count : Nat) (d : Context) : Prop where
  installed : ∀ f, d.installed name f = c.installed name f
  numerics : d.numerics = c.numerics
  ceiling : d.ceiling = c.ceiling
  isTaken : ∀ other, other ≠ name → d.isTaken other = c.isTaken other
  arity : ∀ f, d.user? name = some f → f.arity = count

theorem Varies.refl {count : Nat} (h : ∀ f, c.user? name = some f → f.arity = count) :
    c.Varies name count c :=
  ⟨fun _ => rfl, rfl, rfl, fun _ _ => rfl, h⟩

theorem varies_installed (c : Context) (name : String) (hf : f.memo = .empty) :
    c.Varies name f.arity (c.installed name f) where
  installed g := c.installed_installed name f g
  numerics := rfl
  ceiling := rfl
  isTaken _ hother := c.isTaken_installed hother f
  arity g hg := by
    rw [c.user?_installed name hf] at hg
    cases hg
    rfl

theorem Varies.bits {count : Nat} (h : c.Varies name count d) : d.bits = c.bits :=
  congrArg Numerics.bits h.numerics

end Context

/-! ## Lines -/

/-- The arguments and the value of a base case, read at a width. -/
def Command.baseEntry (w : Nat) : Command → Option (List Number × Number)
  | .define (.baseCase _ texts text) =>
    match texts.mapM (Operand.numeralValue w), Operand.numeralValue w text with
    | .ok args, .ok value => some (args, value)
    | _, _ => none
  | _ => none

/-- The line gives a base case at the arguments. -/
def Command.givesAt (w : Nat) (key : List Number) (line : String) : Bool :=
  ((Command.ofLine line).baseEntry w).map Prod.fst = some key

theorem Command.givesAt_of_baseEntry {w : Nat} {line : String} {args : List Number} {value : Number}
    (h : (Command.ofLine line).baseEntry w = some (args, value)) (key : List Number) :
    Command.givesAt w key line = decide (args = key) := by
  simp only [Command.givesAt, h, Option.map_some, Option.some.injEq]

theorem Command.givesAt_eq_false {w : Nat} {line : String}
    (h : (Command.ofLine line).baseEntry w = none) (key : List Number) :
    Command.givesAt w key line = false := by
  simp only [Command.givesAt, h, Option.map_none, reduceCtorEq, decide_false]

namespace Session

variable {c d : Context} {name : String} {count : Nat}

/-- A line that gives a function a base case with a number of arguments. -/
def IsBaseCaseLine (name : String) (count : Nat) (line : String) : Prop :=
  ∃ texts text, Command.ofLine line = .define (.baseCase name texts text) ∧ texts.length = count

/-- The entries of lines at a width. -/
def entries (w : Nat) (lines : List String) : List (List Number × Number) :=
  lines.filterMap fun line => (Command.ofLine line).baseEntry w

theorem entries_append (w : Nat) (lines lines' : List String) :
    entries w (lines ++ lines') = entries w lines ++ entries w lines' :=
  List.filterMap_append

theorem filter_entries (w : Nat) (key : List Number) (lines : List String) :
    (entries w lines).filter (fun entry => entry.1 = key) =
      entries w (lines.filter (Command.givesAt w key)) := by
  unfold entries
  rw [List.filter_filterMap, List.filterMap_filter]
  congr 1
  funext line
  unfold Command.givesAt
  cases (Command.ofLine line).baseEntry w with
  | none => rfl
  | some entry => simp [Option.filter]

theorem withEntry_spec (former : Option UserFunction) (args : List Number) (value : Number)
    (h : ∀ f, former = some f → f.arity = args.length) :
    (withEntry former args value).arity = args.length ∧
      (withEntry former args value).baseCases =
        ((former.map UserFunction.baseCases).getD .empty).put args value := by
  cases former with
  | none =>
    refine ⟨?_, rfl⟩
    show ((List.range args.length).map Builtin.slot).length = args.length
    rw [List.length_map, List.length_range]
  | some f => exact ⟨h f rfl, rfl⟩

theorem leads_baseCase (h : c.Varies name count d) (hfree : isReservedFunction name = false)
    {line : String} (hline : IsBaseCaseLine name count line) :
    ∃ args value, (Command.ofLine line).baseEntry c.bits = some (args, value) ∧
      args.length = count ∧
      Leads d line (c.installed name (withEntry (d.user? name) args value)) := by
  obtain ⟨texts, text, hcommand, hlength⟩ := hline
  have hentry := isEntry_of_ofLine hcommand
  obtain ⟨args, hargs, hcount⟩ := exists_mapM_numeralValue hentry.args c.bits
  obtain ⟨value, hvalue⟩ := hentry.value.numeralValue_eq_ok c.bits
  refine ⟨args, value, ?_, hcount.trans hlength, ?_⟩
  · simp only [hcommand, Command.baseEntry, hargs, hvalue]
  · rw [← h.bits] at hargs hvalue
    obtain ⟨output, hrun⟩ := run_defineBaseCase hfree hargs hvalue fun f hf =>
      (h.arity f hf).trans (hcount.trans hlength).symm
    rw [← h.installed]
    exact leads_of_perform (by rw [hcommand]; exact hrun)

/-- The body leads to the function with the base cases that it had. -/
theorem leads_function (h : c.Varies name count d) {line source : String} {params : List String}
    {body : Operand} (hcommand : Command.ofLine line = .define (.function name params source))
    (hfree : isReservedFunction name = false) (hname : name ∉ params)
    (hlength : params.length = count) (hchecked : checkParams c name [] params = .ok ())
    (hbody : Operand.compile c.bits c.ceiling source = .ok body) :
    Leads d line (c.installed name ⟨params, some body, d.baseCases name, .empty⟩) := by
  have hredefine : redefine (d.user? name) params body =
      ⟨params, some body, d.baseCases name, .empty⟩ := by
    unfold Context.baseCases
    cases hf : d.user? name with
    | none => rfl
    | some f =>
      have harity : f.arity = (UserFunction.define params (some body)).arity :=
        (h.arity f hf).trans hlength.symm
      unfold redefine
      dsimp only
      rw [if_pos harity]
      show (⟨params, some body, Table.empty.adopt f.baseCases, .empty⟩ : UserFunction) = _
      rw [Table.adopt_empty]
      rfl
  have hchecked' : checkParams d name [] params = .ok () := by
    rw [← hchecked]
    refine checkParams_congr name (fun param hparam => h.isTaken param ?_) []
    rintro rfl
    exact hname hparam
  obtain ⟨output, hrun⟩ := run_defineFunction hfree hchecked' (by rwa [h.bits, h.ceiling])
  rw [← hredefine, ← h.installed]
  exact leads_of_perform (by rw [hcommand]; exact hrun)

/-! ## Runs -/

def LeadsAll (c : Context) (lines : List String) (d : Context) : Prop :=
  (∀ step ∈ steps c lines, Succeeds step.1 step.2) ∧ after c lines = d

theorem leadsAll_nil (c : Context) : LeadsAll c [] c :=
  ⟨fun _ h => absurd h List.not_mem_nil, rfl⟩

theorem Leads.cons {e : Context} {line : String} {lines : List String} (h : Leads c line d)
    (hrest : LeadsAll d lines e) : LeadsAll c (line :: lines) e := by
  obtain ⟨hsuccess, rfl⟩ := h
  refine ⟨fun step hstep => ?_, hrest.2⟩
  rcases List.mem_cons.1 hstep with rfl | hstep
  · exact hsuccess
  · exact hrest.1 step hstep

theorem LeadsAll.append {e : Context} {lines lines' : List String} (h : LeadsAll c lines d)
    (hrest : LeadsAll d lines' e) : LeadsAll c (lines ++ lines') e := by
  induction lines generalizing c with
  | nil =>
    obtain ⟨-, rfl⟩ := h
    exact hrest
  | cons line lines ih =>
    obtain ⟨hsuccess, hafter⟩ := h
    obtain ⟨hline, hlines⟩ := List.forall_mem_cons.1 hsuccess
    exact Leads.cons ⟨hline, rfl⟩ (ih ⟨hlines, hafter⟩)

theorem entries_cons {w : Nat} {line : String} {entry : List Number × Number}
    (h : (Command.ofLine line).baseEntry w = some entry) (lines : List String) :
    entries w (line :: lines) = entry :: entries w lines :=
  List.filterMap_cons_some h

/-- Base cases are given before the body: their entries are collected in the table. -/
theorem exists_leadsAll_baseCases (h : c.Varies name count d)
    (hfree : isReservedFunction name = false) {lines : List String}
    (hlines : ∀ line ∈ lines, IsBaseCaseLine name count line) :
    ∃ e, LeadsAll d lines e ∧ c.Varies name count e ∧
      e.baseCases name = (d.baseCases name).putAll (entries c.bits lines) := by
  induction lines generalizing d with
  | nil => exact ⟨d, leadsAll_nil d, h, rfl⟩
  | cons line lines ih =>
    obtain ⟨hline, hlines⟩ := List.forall_mem_cons.1 hlines
    obtain ⟨args, value, hentry, hlength, hleads⟩ := leads_baseCase h hfree hline
    obtain ⟨harity, hbaseCases⟩ := withEntry_spec (d.user? name) args value
      fun f hf => (h.arity f hf).trans hlength.symm
    have hvaries := c.varies_installed name (f := withEntry (d.user? name) args value) rfl
    rw [harity, hlength] at hvaries
    obtain ⟨e, hall, he, htable⟩ := ih hvaries hlines
    refine ⟨e, hleads.cons hall, he, ?_⟩
    rw [htable, entries_cons hentry, Context.baseCases_installed _ _ rfl, hbaseCases]
    rfl

/-- Base cases are given after the body: they are put into the table of the function. -/
theorem leadsAll_baseCases (c : Context) (name : String) {f : UserFunction}
    (hmemo : f.memo = .empty) (hfree : isReservedFunction name = false) {lines : List String}
    (hlines : ∀ line ∈ lines, IsBaseCaseLine name f.arity line) :
    LeadsAll (c.installed name f) lines
      (c.installed name { f with baseCases := f.baseCases.putAll (entries c.bits lines) }) := by
  induction lines generalizing f with
  | nil => exact leadsAll_nil _
  | cons line lines ih =>
    obtain ⟨hline, hlines⟩ := List.forall_mem_cons.1 hlines
    obtain ⟨args, value, hentry, -, hleads⟩ :=
      leads_baseCase (c.varies_installed name hmemo) hfree hline
    rw [c.user?_installed name hmemo] at hleads
    have hrest := ih (f := withEntry (some f) args value) rfl hlines
    rw [entries_cons hentry, hmemo]
    exact hleads.cons hrest

/-- What a definition that succeeds has passed. -/
theorem exists_body_of_succeeds {line source : String} {params : List String}
    (hcommand : Command.ofLine line = .define (.function name params source))
    (h : Succeeds c line) :
    isReservedFunction name = false ∧ checkParams c name [] params = .ok () ∧
      ∃ body, Operand.compile c.bits c.ceiling source = .ok body := by
  obtain ⟨reply, hreply, hkind⟩ := h
  rcases effect_execute hreply with ⟨-, output, heffect⟩ | ⟨hsome, -⟩
  · rw [hcommand] at heffect
    generalize ((execute line).run c).2 = d at heffect
    cases heffect with
    | quiet hquiet => cases hquiet
    | function hfree hchecked hbody => exact ⟨hfree, hchecked, _, hbody⟩
  · exact absurd hkind hsome

/-- Base cases, then the body, then more base cases. -/
theorem leadsAll_arrangement (harity : ∀ f, c.user? name = some f → f.arity = count)
    {definition source : String} {params : List String} {body : Operand}
    (hcommand : Command.ofLine definition = .define (.function name params source))
    (hfree : isReservedFunction name = false) (hname : name ∉ params)
    (hlength : params.length = count) (hchecked : checkParams c name [] params = .ok ())
    (hbody : Operand.compile c.bits c.ceiling source = .ok body) (before rest : List String)
    (hlines : ∀ line ∈ before ++ rest, IsBaseCaseLine name count line) :
    LeadsAll c (before ++ definition :: rest)
      (c.installed name
        ⟨params, some body, (c.baseCases name).putAll (entries c.bits (before ++ rest)),
          .empty⟩) := by
  obtain ⟨hbefore, hrest⟩ := List.forall_mem_append.1 hlines
  obtain ⟨d, hall, hvaries, htable⟩ := exists_leadsAll_baseCases (.refl harity) hfree hbefore
  have hleads := leads_function hvaries hcommand hfree hname hlength hchecked hbody
  have hlast := leadsAll_baseCases c name
    (f := ⟨params, some body, d.baseCases name, .empty⟩) rfl hfree (hlength ▸ hrest)
  have hentries : (d.baseCases name).putAll (entries c.bits rest) =
      (c.baseCases name).putAll (entries c.bits (before ++ rest)) := by
    rw [htable, entries_append, Table.putAll_append]
  rw [hentries] at hlast
  exact hall.append (hleads.cons hlast)

/-- **Any order.** The lines that give a function its base cases and the line that gives it its body
all succeed in every order and lead to the same context, as long as the base cases at the same
arguments keep their order. -/
theorem base_cases_and_body_in_any_order (c : Context) (name definition source : String)
    (params bases lines : List String)
    (hstate : c.function? name = none ∨ ∃ f, c.user? name = some f ∧ f.arity = params.length)
    (hdefinition : Command.ofLine definition = .define (.function name params source))
    (hname : name ∉ params) (hsucceeds : Succeeds c definition)
    (hbases : ∀ line ∈ bases, IsBaseCaseLine name params.length line)
    (hlines : lines.Perm (definition :: bases))
    (horder : ∀ key, lines.filter (Command.givesAt c.bits key) =
      bases.filter (Command.givesAt c.bits key)) :
    (∀ step ∈ steps c lines, Succeeds step.1 step.2) ∧
      after c lines = after c (definition :: bases) ∧
      ∃ body, Operand.compile c.bits c.ceiling source = .ok body ∧
        (after c lines).user? name = some
          ⟨params, some body, (c.baseCases name).putAll (entries c.bits bases), .empty⟩ := by
  obtain ⟨hfree, hchecked, body, hbody⟩ := exists_body_of_succeeds hdefinition hsucceeds
  have harity : ∀ f, c.user? name = some f → f.arity = params.length := by
    intro f hf
    rcases hstate with hnone | ⟨g, hg, harity⟩
    · rw [Context.user?_eq_some, hnone] at hf
      cases hf
    · rw [hg] at hf
      cases hf
      exact harity
  obtain ⟨before, rest, rfl⟩ := List.append_of_mem (hlines.mem_iff.2 List.mem_cons_self)
  have hperm : (before ++ rest).Perm bases := (List.perm_middle.symm.trans hlines).cons_inv
  have harranged := leadsAll_arrangement harity hdefinition hfree hname rfl hchecked hbody before
    rest fun line hline => hbases line (hperm.mem_iff.1 hline)
  have hfirst := leadsAll_arrangement harity hdefinition hfree hname rfl hchecked hbody []
    bases hbases
  -- the definition itself gives no entry
  have hentries : (c.baseCases name).putAll (entries c.bits (before ++ rest)) =
      (c.baseCases name).putAll (entries c.bits bases) := by
    refine Table.putAll_congr _ fun key => ?_
    have hskip : Command.givesAt c.bits key definition = false :=
      Command.givesAt_eq_false (by rw [hdefinition]; rfl) key
    rw [filter_entries, filter_entries, ← horder key, List.filter_append, List.filter_append,
      List.filter_cons_of_neg (by rw [hskip]; decide)]
  rw [hentries] at harranged
  rw [List.nil_append, List.nil_append] at hfirst
  refine ⟨harranged.1, harranged.2.trans hfirst.2.symm, body, hbody, ?_⟩
  rw [harranged.2]
  exact c.user?_installed name rfl

/-- A function `f` that a function `g` calls, which remembers a value. -/
def calledContext : Context := after (.fresh .standard) ["f[t]=t", "g[t]=f[t]", "g[3]"]

/-- Two base cases have equal arguments and keep their order; the third one and the body move. -/
theorem base_cases_and_body_in_any_order_of_factorial :
    (calledContext.user? "g").map (fun g => g.memo.size) = some 1 ∧
    (∀ step ∈ steps calledContext ["f[1]=1", "f[0]=1", "f[n]=n*f[n-1]", "f[0.0]=2"],
      Succeeds step.1 step.2) ∧
    after calledContext ["f[1]=1", "f[0]=1", "f[n]=n*f[n-1]", "f[0.0]=2"] =
      after calledContext ["f[n]=n*f[n-1]", "f[0]=1", "f[0.0]=2", "f[1]=1"] ∧
    ((after calledContext ["f[1]=1", "f[0]=1", "f[n]=n*f[n-1]", "f[0.0]=2"]).user? "f").map
      (fun f => (f.params, f.baseCases.entries)) = some (["n"], [([0], 2), ([1], 1)]) := by
  have hf : (calledContext.user? "f").map UserFunction.arity = some 1 := by decide +kernel
  have hreply : ((execute "f[n]=n*f[n-1]").run calledContext).1 =
      .ok (.ofOutput "f[n] := n*f[n-1]") := by decide +kernel
  have hzero : (Command.ofLine "f[0]=1").baseEntry calledContext.bits = some ([0], 1) := by
    decide +kernel
  have hpoint : (Command.ofLine "f[0.0]=2").baseEntry calledContext.bits = some ([0], 2) := by
    decide +kernel
  have hone : (Command.ofLine "f[1]=1").baseEntry calledContext.bits = some ([1], 1) := by
    decide +kernel
  have hbody : Command.ofLine "f[n]=n*f[n-1]" = .define (.function "f" ["n"] "n*f[n-1]") := by
    decide +kernel
  have hnone : (Command.ofLine "f[n]=n*f[n-1]").baseEntry calledContext.bits = none := by
    rw [hbody]
    rfl
  have hall := base_cases_and_body_in_any_order calledContext "f" "f[n]=n*f[n-1]" "n*f[n-1]" ["n"]
    ["f[0]=1", "f[0.0]=2", "f[1]=1"] ["f[1]=1", "f[0]=1", "f[n]=n*f[n-1]", "f[0.0]=2"]
    (.inr (Option.map_eq_some_iff.1 hf)) hbody (by decide) ⟨_, hreply, rfl⟩ ?_ (by decide) ?_
  · exact ⟨by decide +kernel, hall.1, hall.2.1, by decide +kernel⟩
  · intro line hline
    simp only [List.mem_cons, List.not_mem_nil, or_false] at hline
    rcases hline with rfl | rfl | rfl
    · exact ⟨["0"], "1", by decide +kernel, rfl⟩
    · exact ⟨["0.0"], "2", by decide +kernel, rfl⟩
    · exact ⟨["1"], "1", by decide +kernel, rfl⟩
  · intro key
    simp only [List.filter_cons, List.filter_nil, Command.givesAt_of_baseEntry hzero,
      Command.givesAt_of_baseEntry hpoint, Command.givesAt_of_baseEntry hone,
      Command.givesAt_eq_false hnone, decide_eq_true_eq, Bool.false_eq_true, if_false]
    by_cases hkey : [0] = key
    · have hother : [1] ≠ key := by
        rw [← hkey]
        decide
      simp only [if_pos hkey, if_neg hother]
    · simp only [if_neg hkey]

end Session

end Reckoner
