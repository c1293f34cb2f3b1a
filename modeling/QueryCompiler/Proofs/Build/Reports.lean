import QueryCompiler.Proofs.Build.Run

/-!
# What steps report

A step only ever adds events, and none that says that the compilation is over; which events it adds is
said of its result. `Reports` is put together along the steps of a compilation: what two steps report
is what the first reports and then what the second does.
-/

namespace QueryCompiler.Build

variable {α β γ : Type}

/-- The end of a run from `p` on. The events are those before it and new ones, none of them final; if
the run succeeds, `R` holds of its result and the new events. -/
inductive Reported (R : α → List Event → Prop) (p : Progress) :
    EStateM.Result Stop Progress α → Prop where
  | ok {a : α} {p' : Progress} {new : List Event} : p'.events = p.events ++ new →
      (∀ e ∈ new, e.isFinal = false) → R a new → Reported R p (.ok a p')
  | error {stop : Stop} {p' : Progress} {new : List Event} : p'.events = p.events ++ new →
      (∀ e ∈ new, e.isFinal = false) → Reported R p (.error stop p')

/-- All runs of a step end so. -/
def Reports (R : α → List Event → Prop) (x : Build α) : Prop :=
  ∀ p, Reported R p (x.run p)

namespace Reports

variable {R R' : α → List Event → Prop} {S : β → List Event → Prop} {x : Build α}

theorem mono (h : Reports R x) (hR : ∀ a new, R a new → R' a new) : Reports R' x := by
  intro p
  have hend := h p
  generalize x.run p = u at hend
  cases hend with
  | ok hevents hopen ha => exact .ok hevents hopen (hR _ _ ha)
  | error hevents hopen => exact .error hevents hopen

/-- What is said of the result holds of a run that succeeds. -/
theorem exists_of_eq_ok {p p' : Progress} {a : α} (h : Reports R x) (hrun : x.run p = .ok a p') :
    ∃ new, p'.events = p.events ++ new ∧ R a new := by
  have hend := h p
  rw [hrun] at hend
  cases hend with
  | ok hevents _ ha => exact ⟨_, hevents, ha⟩

theorem pure {a : α} (h : R a []) : Reports R (Pure.pure a : Build α) :=
  fun _ => .ok (List.append_nil _).symm nofun h

theorem throw (stop : Stop) : Reports R (MonadExcept.throw stop : Build α) :=
  fun _ => .error (List.append_nil _).symm nofun

theorem reject (e : CompileError) : Reports R (Build.reject e : Build α) :=
  throw _

theorem ofExcept {x : Except CompileError α} (h : ∀ a, x = .ok a → R a []) :
    Reports R (Build.ofExcept x) := by
  cases x with
  | ok a => exact .pure (h a rfl)
  | error e => exact .reject e

theorem freshNumber {R : Nat → List Event → Prop} (h : ∀ n, R n []) : Reports R freshNumber :=
  fun p => .ok (List.append_nil _).symm nofun (h p.nextNumber)

theorem report {R : Unit → List Event → Prop} {e : Event} (he : e.isFinal = false) (h : R () [e]) :
    Reports R (Build.report e) :=
  fun _ => .ok rfl (List.forall_mem_singleton.2 he) h

/-- The second step is looked at for each result and each report of the first. -/
theorem bind {f : α → Build β} (hx : Reports R x) (hf : ∀ a p p' new, x.run p = .ok a p' → R a new →
    Reports (fun b more => S b (new ++ more)) (f a)) : Reports S (x >>= f) := by
  intro p
  change Reported S p (EStateM.bind x f p)
  unfold EStateM.bind
  have hend := hx p
  change Reported R p (x p) at hend
  cases hrun : x p with
  | error stop q =>
    rw [hrun] at hend
    cases hend with
    | error hevents hopen => exact .error hevents hopen
  | ok a q =>
    rw [hrun] at hend
    cases hend with
    | @ok _ _ new hevents hopen ha =>
      have hrest := hf a p q new hrun ha q
      change Reported _ q (f a q) at hrest
      show Reported S p (f a q)
      generalize f a q = v at hrest
      have hall : ∀ more : List Event, (∀ e ∈ more, e.isFinal = false) →
          ∀ e ∈ new ++ more, e.isFinal = false := fun more hmore e he =>
        (List.mem_append.1 he).elim (hopen e) (hmore e)
      have hsum : ∀ more : List Event, q.events ++ more = p.events ++ (new ++ more) := fun more => by
        rw [hevents, List.append_assoc]
      cases hrest with
      | @ok _ _ more hmore hopen' hb => exact .ok (hmore.trans (hsum more)) (hall more hopen') hb
      | @error _ _ more hmore hopen' => exact .error (hmore.trans (hsum more)) (hall more hopen')

theorem map {f : α → β} (hx : Reports R x) (hf : ∀ a new, R a new → S (f a) new) :
    Reports S (f <$> x) := by
  rw [← bind_pure_comp]
  refine hx.bind fun a _ _ new _ ha => .pure ?_
  rw [List.append_nil]
  exact hf a new ha

/-- A first step that reports nothing. -/
theorem bind_silent {f : α → Build β} (hx : Reports (fun _ new => new = []) x)
    (hf : ∀ a p p', x.run p = .ok a p' → Reports S (f a)) : Reports S (x >>= f) := by
  refine hx.bind fun a p p' new hrun hnone => ?_
  subst hnone
  exact hf a p p' hrun

/-- What steps over the items of a list report is what belongs to their results. -/
theorem mapM {Q : α → β → Prop} {F : β → List Event} {f : α → Build β} {as : List α}
    (h : ∀ a ∈ as, Reports (fun b new => Q a b ∧ new.Perm (F b)) (f a)) :
    Reports (fun bs new => List.Forall₂ Q as bs ∧ new.Perm (bs.flatMap F)) (as.mapM f) := by
  induction as with
  | nil => exact .pure ⟨.nil, .refl _⟩
  | cons a as ih =>
    rw [List.mapM_cons]
    refine (h a List.mem_cons_self).bind fun b _ _ new _ hb => ?_
    refine (ih fun a' ha' => h a' (List.mem_cons_of_mem _ ha')).bind fun bs _ _ more _ hbs => ?_
    refine .pure ⟨.cons hb.1 hbs.1, ?_⟩
    rw [List.append_nil, List.flatMap_cons]
    exact hb.2.append hbs.2

/-- Steps one after the other on one value. -/
theorem foldlM {T : β → β → List Event → Prop} {f : β → α → Build β} (hrefl : ∀ b, T b b [])
    (htrans : ∀ b b' b'' new more, T b b' new → T b' b'' more → T b b'' (new ++ more))
    {as : List α} (h : ∀ b, ∀ a ∈ as, Reports (T b) (f b a)) (b : β) :
    Reports (T b) (as.foldlM f b) := by
  induction as generalizing b with
  | nil => exact .pure (hrefl b)
  | cons a as ih =>
    rw [List.foldlM_cons]
    refine (h b a List.mem_cons_self).bind fun b' _ _ new _ hb => ?_
    exact (ih (fun b a ha => h b a (List.mem_cons_of_mem _ ha)) b').mono
      fun b'' more hmore => htrans b b' b'' new more hb hmore

end Reports
end QueryCompiler.Build
