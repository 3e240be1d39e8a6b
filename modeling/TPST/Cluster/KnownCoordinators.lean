import TPST.Cluster.Startup

/-!
# The coordinators that a server knows

A server lists the coordinators as soon as it has recorded itself, and does not wait for the other
servers. So it comes to know the coordinators that had recorded themselves when it began, and maybe
some of those that do so meanwhile (`startup_coordinators`); these are the coordinators of the
deployment when all had recorded themselves (`knows_all`).
-/

namespace TPST

open Std Schedule

namespace Startup

section Coordinators

variable {D : Deployment} {σ : State} {i : ℕ} {server : Server} {r : ℕ} {a clusterName : String}

/-- The coordinators that have recorded themselves. -/
def Coordinates (D : Deployment) (fs : FileTree) (r : ℕ) (a : String) : Prop :=
  (r, a) ∈ D.servers ∧ r < D.gmGroupNumber ∧ D.finalDir r ++ [a] ∈ fs

/-- **A coordinator directory lists the coordinator of its cluster**, if it has recorded itself. -/
theorem Inv.mem_coordinatorDir (h : Inv D σ) :
    a ∈ loadAddrInDir σ.files (gmMultinodeip ++ [clusterName] ++ [gmCoordinatorDir]) ↔
      ∃ r, Coordinates D σ.files r a ∧ D.getClusterDir r = gmMultinodeip ++ [clusterName] := by
  rw [mem_loadAddrInDir]
  constructor
  · intro hmem
    obtain ⟨server, hserver, hdir | ⟨-, heq⟩⟩ := h.files _ hmem
    · have hlength : ∀ p ∈ D.dirs server.gmRank, p.length ≤ 4 := by
        intro p hp
        rcases GroupConfig.mem_dirs hp with rfl | rfl | rfl
        · exact Nat.le_add_left _ _
        · rw [GroupConfig.length_dirSecond]
          exact Nat.le_succ 3
        · exact D.length_finalDir_le _
      have hfive := hlength _ hdir
      simp [gmMultinodeip] at hfive
    · obtain ⟨hfinal, haddr⟩ := List.append_inj' heq rfl
      obtain rfl := List.singleton_inj.1 haddr
      have hrole := (GroupConfig.finalDir_eq_coordinatorDir D.groupSize_pos).1 hfinal.symm
      refine ⟨server.gmRank, ⟨h.mem_servers hserver,
        GroupConfig.serverStatus_eq_coordinator.1 hrole.1, ?_⟩, hrole.2⟩
      rwa [← hfinal]
  · rintro ⟨r, ⟨hmem, hr, hfile⟩, hcluster⟩
    have hrole := GroupConfig.serverStatus_eq_coordinator.2 hr
    rwa [(GroupConfig.finalDir_eq_coordinatorDir D.groupSize_pos).2 ⟨hrole, hcluster⟩] at hfile

/-- There is no other coordinator in a cluster. -/
theorem Inv.head?_coordinatorDir (h : Inv D σ) (hcoordinates : Coordinates D σ.files r a)
    (hcluster : D.getClusterDir r = gmMultinodeip ++ [clusterName]) :
    ∃ rest, loadAddrInDir σ.files (gmMultinodeip ++ [clusterName] ++ [gmCoordinatorDir]) =
      a :: rest := by
  have hlisted := h.mem_coordinatorDir.2 ⟨r, hcoordinates, hcluster⟩
  cases hlist : loadAddrInDir σ.files (gmMultinodeip ++ [clusterName] ++ [gmCoordinatorDir]) with
  | nil =>
    rw [hlist] at hlisted
    exact absurd hlisted List.not_mem_nil
  | cons a' rest =>
    obtain ⟨r', hother, hcluster'⟩ := h.mem_coordinatorDir.1 (hlist ▸ List.mem_cons_self)
    have hmod := GroupConfig.getClusterDir_inj.1 (hcluster'.trans hcluster.symm)
    rw [Nat.mod_eq_of_lt hother.2.1, Nat.mod_eq_of_lt hcoordinates.2.1] at hmod
    subst hmod
    have haddr := D.addr_unique hother.1 hcoordinates.1
    exact ⟨rest, by rw [haddr]⟩

/-- The cluster directory of a coordinator that has recorded itself is there. -/
theorem Inv.clusterName_mem (h : Inv D σ) (hcoordinates : Coordinates D σ.files r a)
    (hcluster : D.getClusterDir r = gmMultinodeip ++ [clusterName]) :
    clusterName ∈ loadAddrInDir σ.files gmMultinodeip := by
  obtain ⟨hmem, hr, hfile⟩ := hcoordinates
  rw [← h.servers] at hmem
  obtain ⟨server, hserver, heq⟩ := List.mem_map.1 hmem
  obtain ⟨rfl, rfl⟩ := Prod.mk.inj heq
  have hrecorded := (h.file_mem_iff hserver).1 hfile
  obtain ⟨made, hdirs, hmade⟩ := (h.knows server hserver).made
  have hleft : server.position.left = [] := by
    cases hpos : server.position <;> simp_all [Position.recorded, Position.left]
  rw [hleft, List.append_nil] at hdirs
  have hsecond : D.dirSecond server.gmRank = gmMultinodeip ++ [clusterName] := by
    rw [GroupConfig.dirSecond_eq D.groupSize_pos, if_neg, hcluster]
    simp [GroupConfig.serverStatus_eq_coordinator.2 hr]
  rw [mem_loadAddrInDir, ← hsecond]
  exact hmade _ (hdirs ▸ .tail _ (.head _))

/-- The server knows the coordinator, or it comes to the coordinator's cluster. -/
def Server.Expects (clusterName a : String) (server : Server) : Prop :=
  match server.position with
  | .cluster rest => clusterName ∈ rest ∨ a ∈ server.coordinatorAddrSet
  | .up => a ∈ server.coordinatorAddrSet
  | _ => True

theorem expects_next (rest : List Path) (coordinatorAddrSet : OSet String) (addr : String) :
    Server.Expects clusterName a ⟨r, addr, .next rest, coordinatorAddrSet⟩ := by
  cases rest <;> trivial

/-- **A server that has not listed a coordinator comes to it.** -/
theorem expects_serverStep (h : Inv D σ) (hcoordinates : Coordinates D σ.files r a)
    (hcluster : D.getClusterDir r = gmMultinodeip ++ [clusterName])
    (hexpects : server.Expects clusterName a) :
    (serverStep D.toGroupConfig σ.files server).2.Expects clusterName a := by
  obtain ⟨gmRank, addr, position, coordinatorAddrSet⟩ := server
  cases position with
  | test dir rest =>
    simp only [serverStep]
    split
    · exact expects_next _ _ _
    · trivial
  | mkdir dir rest =>
    simp only [serverStep]
    split
    · exact expects_next _ _ _
    · trivial
  | again dir rest =>
    simp only [serverStep]
    split
    · exact expects_next _ _ _
    · trivial
  | record => trivial
  | update => exact .inl (h.clusterName_mem hcoordinates hcluster)
  | cluster names =>
    cases names with
    | nil => exact hexpects.resolve_left List.not_mem_nil
    | cons name rest =>
      rcases hexpects with hmem | hknown
      · rcases List.mem_cons.1 hmem with rfl | hmem
        · obtain ⟨others, hlist⟩ := h.head?_coordinatorDir hcoordinates hcluster
          simp only [serverStep, hlist]
          exact .inr (ExtTreeSet.mem_insert.2 (.inl (Std.compare_eq_iff_eq.2 rfl)))
        · exact .inl hmem
      · right
        simp only [serverStep]
        split
        · exact hknown
        · exact ExtTreeSet.mem_insert.2 (.inr hknown)
  | up => exact hexpects

theorem mem_serverStep {cfg : GroupConfig} {fs : FileTree}
    (ha : a ∈ (serverStep cfg fs server).2.coordinatorAddrSet) :
    a ∈ server.coordinatorAddrSet ∨ ∃ clusterName,
      a ∈ loadAddrInDir fs (gmMultinodeip ++ [clusterName] ++ [gmCoordinatorDir]) := by
  obtain ⟨gmRank, addr, position, coordinatorAddrSet⟩ := server
  cases position with
  | mkdir dir rest =>
    simp only [serverStep] at ha
    split at ha <;> exact .inl ha
  | cluster names =>
    cases names with
    | nil => exact .inl ha
    | cons name rest =>
      simp only [serverStep] at ha
      split at ha
      · exact .inl ha
      · rename_i coor others hlist
        rcases ExtTreeSet.mem_insert.1 ha with heq | ha
        · obtain rfl := Std.compare_eq_iff_eq.1 heq
          exact .inr ⟨name, hlist ▸ List.mem_cons_self⟩
        · exact .inl ha
  | _ => exact .inl ha

/-- Whoever a server knows is a coordinator that has recorded itself. -/
def KnowsOnly (D : Deployment) (σ : State) : Prop :=
  ∀ server ∈ σ.servers, ∀ a ∈ server.coordinatorAddrSet, ∃ r, Coordinates D σ.files r a

theorem knowsOnly_step (i : ℕ) (σ : State) (h : Inv D σ ∧ KnowsOnly D σ) :
    Inv D (step D.toGroupConfig i σ) ∧ KnowsOnly D (step D.toGroupConfig i σ) := by
  obtain ⟨hinv, hknows⟩ := h
  refine ⟨inv_step i σ hinv, ?_⟩
  cases hi : σ.servers[i]? with
  | none => simpa only [step, hi] using hknows
  | some server =>
    have hgoes := hinv.goes (List.mem_of_getElem? hi)
    simp only [step, hi, KnowsOnly]
    have hkept : ∀ a, (∃ r, Coordinates D σ.files r a) →
        ∃ r, Coordinates D (serverStep D.toGroupConfig σ.files server).1 r a := by
      rintro a ⟨r, hmem, hr, hfile⟩
      exact ⟨r, hmem, hr, hgoes.subset hfile⟩
    refine forall_mem_set (fun s hs a ha => hkept a (hknows s hs a ha)) fun a ha => hkept a ?_
    rcases mem_serverStep ha with ha | ⟨clusterName, hlisted⟩
    · exact hknows server (List.mem_of_getElem? hi) a ha
    · obtain ⟨r, hcoordinates, -⟩ := hinv.mem_coordinatorDir.1 hlisted
      exact ⟨r, hcoordinates⟩

theorem inv_knowsOnly (D : Deployment) (is : List ℕ) :
    Inv D (run (step D.toGroupConfig) is (start D)) ∧
      KnowsOnly D (run (step D.toGroupConfig) is (start D)) := by
  refine (always_of_invariant knowsOnly_step (fun _ h => h) ⟨inv_start D, ?_⟩ is).run
  intro server hserver a ha
  obtain ⟨s, -, rfl⟩ := List.mem_map.1 hserver
  simp at ha

/-- The server `i` expects a coordinator that has recorded itself. -/
structure Awaits (D : Deployment) (i r : ℕ) (a clusterName : String) (σ : State) : Prop where
  inv : Inv D σ
  coordinates : Coordinates D σ.files r a
  expects : ∀ server, σ.servers[i]? = some server → server.Expects clusterName a

theorem awaits_step (hcluster : D.getClusterDir r = gmMultinodeip ++ [clusterName]) (j : ℕ)
    (σ : State) (h : Awaits D i r a clusterName σ) :
    Awaits D i r a clusterName (step D.toGroupConfig j σ) := by
  obtain ⟨hinv, ⟨hmem, hr, hfile⟩, hexpects⟩ := h
  cases hj : σ.servers[j]? with
  | none => simpa only [step, hj] using Awaits.mk hinv ⟨hmem, hr, hfile⟩ hexpects
  | some server =>
    have hgoes := hinv.goes (List.mem_of_getElem? hj)
    have hlt := (List.getElem?_eq_some_iff.1 hj).1
    refine ⟨inv_step j σ hinv, ?_, ?_⟩
    · simp only [step, hj]
      exact ⟨hmem, hr, hgoes.subset hfile⟩
    · intro server' hserver'
      by_cases hij : j = i
      · subst hij
        simp only [step, hj, List.getElem?_set_self hlt, Option.some.injEq] at hserver'
        rw [← hserver']
        exact expects_serverStep hinv ⟨hmem, hr, hfile⟩ hcluster (hexpects server hj)
      · simp only [step, hj, List.getElem?_set_ne hij] at hserver'
        exact hexpects server' hserver'

/-- The server has not begun to list the coordinators. -/
def Position.early : Position → Bool
  | .cluster _ | .up => false
  | _ => true

theorem mem_recordedOrder_iff {is : List ℕ} (hr : r < D.gmGroupNumber) :
    (r, a) ∈ recordedOrder D is ↔
      Coordinates D (run (step D.toGroupConfig) is (start D)).files r a := by
  have hinv := inv_run D is
  constructor
  · intro hmem
    obtain ⟨j, -, hj⟩ := List.mem_filterMap.1 hmem
    have hlisted := List.mem_of_getElem? hj
    refine ⟨hlisted, hr, ?_⟩
    rw [← hinv.servers] at hlisted
    obtain ⟨server, hserver, heq⟩ := List.mem_map.1 hlisted
    obtain ⟨rfl, rfl⟩ := Prod.mk.inj heq
    exact (hinv.file_mem_iff hserver).2 ((mem_recordedOrder hserver).1 hmem)
  · rintro ⟨hlisted, -, hfile⟩
    rw [← hinv.servers] at hlisted
    obtain ⟨server, hserver, heq⟩ := List.mem_map.1 hlisted
    obtain ⟨rfl, rfl⟩ := Prod.mk.inj heq
    exact (mem_recordedOrder hserver).2 ((hinv.file_mem_iff hserver).1 hfile)

/-- A server comes to know the coordinators that have recorded themselves before it begins to list
them. -/
theorem knows_recorded (D : Deployment) (pre post : List ℕ) {server server' : Server}
    (hserver : (run (step D.toGroupConfig) pre (start D)).servers[i]? = some server)
    (hearly : server.position.early = true)
    (hserver' : (run (step D.toGroupConfig) (pre ++ post) (start D)).servers[i]? = some server')
    (hup : server'.position = .up) (hr : r < D.gmGroupNumber)
    (hmem : (r, a) ∈ recordedOrder D pre) : a ∈ server'.coordinatorAddrSet := by
  have hawaits : Awaits D i r a ("cluster" ++ (r % D.gmGroupNumber).repr)
      (run (step D.toGroupConfig) pre (start D)) := by
    refine ⟨inv_run D pre, (mem_recordedOrder_iff hr).1 hmem, fun s hs => ?_⟩
    obtain rfl := Option.some.inj (hserver.symm.trans hs)
    cases hpos : server.position with
    | cluster names =>
      rw [hpos] at hearly
      exact Bool.noConfusion hearly
    | up =>
      rw [hpos] at hearly
      exact Bool.noConfusion hearly
    | _ => simp only [Server.Expects, hpos]
  have hlater := (always_of_invariant (awaits_step rfl) (fun _ h => h) hawaits post).run
  rw [← run_append] at hlater
  have hexpects := hlater.expects server' hserver'
  rwa [Server.Expects, hup] at hexpects

/-- Whoever a server knows is a coordinator that has recorded itself. -/
theorem recorded_of_known {is : List ℕ}
    (hmem : server ∈ (run (step D.toGroupConfig) is (start D)).servers)
    (ha : a ∈ server.coordinatorAddrSet) :
    ∃ r, r < D.gmGroupNumber ∧ (r, a) ∈ recordedOrder D is := by
  obtain ⟨r, hcoordinates⟩ := (inv_knowsOnly D is).2 server hmem a ha
  exact ⟨r, hcoordinates.2.1, (mem_recordedOrder_iff hcoordinates.2.1).2 hcoordinates⟩

/-- **The coordinators that a server knows when it is up**: those that had recorded themselves when
it began to list them, and others only if they have recorded themselves meanwhile. -/
theorem startup_coordinators (D : Deployment) (pre post : List ℕ) {server server' : Server}
    (hserver : (run (step D.toGroupConfig) pre (start D)).servers[i]? = some server)
    (hearly : server.position.early = true)
    (hserver' : (run (step D.toGroupConfig) (pre ++ post) (start D)).servers[i]? = some server')
    (hup : server'.position = .up) :
    (∀ r a, r < D.gmGroupNumber → (r, a) ∈ recordedOrder D pre →
      a ∈ server'.coordinatorAddrSet) ∧
    ∀ a ∈ server'.coordinatorAddrSet, ∃ r, r < D.gmGroupNumber ∧
      (r, a) ∈ recordedOrder D (pre ++ post) :=
  ⟨fun _ _ hr hmem => knows_recorded D pre post hserver hearly hserver' hup hr hmem,
    fun _ ha => recorded_of_known (List.mem_of_getElem? hserver') ha⟩

/-- The server `n0:50051` comes up before the others start, and does not know `n1:50051`. -/
theorem startup_coordinators_first :
    ∃ server', (run (step twoCoordinators.toGroupConfig) (.replicate 7 0 ++ .replicate 3 0)
        (start twoCoordinators)).servers[0]? = some server' ∧
      "n0:50051" ∈ server'.coordinatorAddrSet ∧ "n1:50051" ∉ server'.coordinatorAddrSet := by
  obtain ⟨server, hserver⟩ : ∃ server, (run (step twoCoordinators.toGroupConfig) (.replicate 7 0)
      (start twoCoordinators)).servers[0]? = some server :=
    Option.isSome_iff_exists.1 (by decide +kernel)
  obtain ⟨server', hserver'⟩ : ∃ server', (run (step twoCoordinators.toGroupConfig)
      (.replicate 7 0 ++ .replicate 3 0) (start twoCoordinators)).servers[0]? = some server' :=
    Option.isSome_iff_exists.1 (by decide +kernel)
  have hearly : ((run (step twoCoordinators.toGroupConfig) (.replicate 7 0)
      (start twoCoordinators)).servers[0]?).map (·.position.early) = some true := by decide +kernel
  have hup : ((run (step twoCoordinators.toGroupConfig) (.replicate 7 0 ++ .replicate 3 0)
      (start twoCoordinators)).servers[0]?).map (·.position) = some .up := by decide +kernel
  rw [hserver] at hearly
  rw [hserver'] at hup
  have hknown := startup_coordinators twoCoordinators _ _ hserver (Option.some.inj hearly) hserver'
    (Option.some.inj hup)
  refine ⟨server', hserver', hknown.1 0 _ (by decide) (by decide +kernel), fun hmem => ?_⟩
  obtain ⟨r, hr, hrecorded⟩ := hknown.2 _ hmem
  have honly : recordedOrder twoCoordinators (.replicate 7 0 ++ .replicate 3 0) =
      [(0, "n0:50051")] := by
    decide +kernel
  rw [honly] at hrecorded
  simp at hrecorded

/-- A server that begins to list when all have recorded themselves comes to know the coordinators
that the servers of a deployment know. -/
theorem knows_all (D : Deployment) (pre post : List ℕ) {server server' : Server}
    (hserver : (run (step D.toGroupConfig) pre (start D)).servers[i]? = some server)
    (hearly : server.position.early = true)
    (hserver' : (run (step D.toGroupConfig) (pre ++ post) (start D)).servers[i]? = some server')
    (hup : server'.position = .up) (hall : (recordedOrder D pre).Perm D.servers)
    (record : EventRecordMap) (r : ℕ) :
    a ∈ server'.coordinatorAddrSet ↔ a ∈ (D.member record r).coordinatorAddrSet := by
  rw [D.mem_coordinatorAddrSet]
  constructor
  · intro ha
    obtain ⟨r', hr', hmem⟩ := recorded_of_known (List.mem_of_getElem? hserver') ha
    exact ⟨r', ((mem_recordedOrder_iff hr').1 hmem).1, hr'⟩
  · rintro ⟨r', hmem, hr'⟩
    exact knows_recorded D pre post hserver hearly hserver' hup hr' (hall.mem_iff.2 hmem)

end Coordinators

end Startup

end TPST
