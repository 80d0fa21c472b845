import BatmanAdv.UnixListen

/-!
# The lists of `debug_clients`

A client with a `debug_level` has one entry in the `fd_list` of that level. A message with another level
moves the entry, one with the same level takes it out, and so does the end of the connection. Sockets of
open clients differ, so the loop that looks for an entry by its `fd` finds the one of its client.
-/

namespace BatmanAdv

open Transition ListHeadFirst

namespace UnixListen

variable {l t : UnixListen} {c : ListedClient} {w : UnixWalk} {buff : List Byte} {info debugLevelMax : ℕ}
  {level : ℤ} {ptr fd : ℕ}

/-! ## Definitions -/

/-- The indices of `debug_clients`. -/
def IsLevel (debugLevelMax : ℕ) (level : ℤ) : Prop := 0 ≤ level ∧ level < debugLevelMax

/-- The entries of `fd_list[level]`, each with its `fd`. -/
def FdList (l : UnixListen) (level : ℤ) (fds : List ℕ) : Prop :=
  ∃ ptrs, (l.fdList level).Lists ptrs ∧ ptrs.map l.fdAt = fds.map some

/-- **The lists, their counters and the levels of the clients agree.** -/
def LevelsOk (debugLevelMax : ℕ) (l : UnixListen) : Prop :=
  ∃ fds : ℤ → List ℕ,
    (∀ level, IsLevel debugLevelMax level →
      l.FdList level (fds level) ∧ (l.clientsNum level).toInt = (fds level).length) ∧
    ∀ c ∈ l.clients,
      (c.debugLevel ≠ 0 → IsLevel debugLevelMax (levelIndex c.debugLevel) ∧
        (fds (levelIndex c.debugLevel)).count c.sock = 1) ∧
      ∀ level, IsLevel debugLevelMax level → c.debugLevel = 0 ∨ level ≠ levelIndex c.debugLevel →
        c.sock ∉ fds level

/-- The lists in memory have these entries, which are those of the descriptors with `subs`, each once. -/
structure Entries (debugLevelMax : ℕ) (l : UnixListen) (subs : ℤ → ℕ → Prop)
    (entries : ℤ → List DebugLevelInfo) : Prop where
  lists : ∀ level, IsLevel debugLevelMax level → (l.fdList level).Lists ((entries level).map (·.ptr))
  num : ∀ level, IsLevel debugLevelMax level → l.clientsNum level = BitVec.ofNat 16 (entries level).length
  live : ∀ level, IsLevel debugLevelMax level → entries level ⊆ l.infos
  ptrs : (l.infos.map (·.ptr)).Nodup
  apart : ∀ level level', IsLevel debugLevelMax level → IsLevel debugLevelMax level' →
    ∀ x ∈ entries level, x ∈ entries level' → level = level'
  nodup : ∀ level, IsLevel debugLevelMax level → ((entries level).map (·.fd)).Nodup
  fds : ∀ level, IsLevel debugLevelMax level → ∀ fd, fd ∈ (entries level).map (·.fd) ↔ subs level fd

variable {subs : ℤ → ℕ → Prop} {entries : ℤ → List DebugLevelInfo}

/-! ## Taking an entry out and putting one in -/

theorem fdAt_of_mem (hptrs : (l.infos.map (·.ptr)).Nodup) {x : DebugLevelInfo} (hx : x ∈ l.infos) :
    l.fdAt x.ptr = some x.fd := by
  unfold fdAt
  cases hfind : l.infos.find? (·.ptr = x.ptr) with
  | none => exact absurd (List.find?_eq_none.mp hfind x hx) (by simp)
  | some y =>
    have hptr : y.ptr = x.ptr := by simpa using List.find?_some hfind
    rw [List.inj_on_of_nodup_map hptrs (List.mem_of_find?_eq_some hfind) hx hptr]
    rfl

theorem Entries.congr (h : l.Entries debugLevelMax subs entries) {subs' : ℤ → ℕ → Prop}
    (hinfos : t.infos = l.infos) (hlist : t.fdList = l.fdList) (hnum : t.clientsNum = l.clientsNum)
    (hsubs : ∀ level, IsLevel debugLevelMax level → ∀ fd, subs level fd ↔ subs' level fd) :
    t.Entries debugLevelMax subs' entries where
  lists := hlist ▸ h.lists
  num := hnum ▸ h.num
  live := hinfos ▸ h.live
  ptrs := hinfos ▸ h.ptrs
  apart := h.apart
  nodup := h.nodup
  fds level hlevel fd := (h.fds level hlevel fd).trans (hsubs level hlevel fd)

theorem Entries.erase (h : l.Entries debugLevelMax subs entries) (hlevel : IsLevel debugLevelMax level)
    {a b : List DebugLevelInfo} {x : DebugLevelInfo} (hsplit : entries level = a ++ x :: b)
    (hlists : (t.fdList level).Lists ((a ++ b).map (·.ptr)))
    (hother : ∀ level', level' ≠ level →
      t.fdList level' = l.fdList level' ∧ t.clientsNum level' = l.clientsNum level')
    (hnum : t.clientsNum level = l.clientsNum level - 1)
    (hinfos : t.infos = l.infos.filter fun info => info.ptr ≠ x.ptr) :
    t.Entries debugLevelMax (fun level' fd => subs level' fd ∧ ¬ (level' = level ∧ fd = x.fd))
      (Function.update entries level (a ++ b)) := by
  have hx : x ∈ entries level := by simp [hsplit]
  have hnodup := h.nodup level hlevel
  rw [hsplit, List.map_append, List.map_cons, List.nodup_middle, List.nodup_cons, ← List.map_append] at hnodup
  have hsub : a ++ b ⊆ entries level := by
    rw [hsplit]
    exact (List.Sublist.append_left (List.sublist_cons_self x b) a).subset
  -- what is left is in memory
  have hkept : ∀ level', IsLevel debugLevelMax level' → ∀ y ∈ Function.update entries level (a ++ b) level',
      y ∈ entries level' ∧ y ≠ x := by
    intro level' hlevel' y hy
    by_cases heq : level' = level
    · subst heq
      rw [Function.update_self] at hy
      refine ⟨hsub hy, ?_⟩
      rintro rfl
      exact hnodup.1 (List.mem_map_of_mem hy)
    · rw [Function.update_of_ne heq] at hy
      refine ⟨hy, ?_⟩
      rintro rfl
      exact heq (h.apart level' level hlevel' hlevel y hy hx)
  constructor
  case lists =>
    intro level' hlevel'
    by_cases heq : level' = level
    · subst heq
      rwa [Function.update_self]
    · rw [Function.update_of_ne heq, (hother level' heq).1]
      exact h.lists level' hlevel'
  case num =>
    intro level' hlevel'
    by_cases heq : level' = level
    · subst heq
      have hlen : (a ++ x :: b).length = (a ++ b).length + 1 := by simp [Nat.add_assoc]
      rw [Function.update_self, hnum, h.num level' hlevel', hsplit, hlen, BitVec.ofNat_add]
      exact BitVec.add_sub_cancel _ _
    · rw [Function.update_of_ne heq, (hother level' heq).2]
      exact h.num level' hlevel'
  case live =>
    intro level' hlevel' y hy
    obtain ⟨hy, hne⟩ := hkept level' hlevel' y hy
    have hlive := h.live level' hlevel' hy
    rw [hinfos, List.mem_filter, decide_eq_true_iff]
    exact ⟨hlive, fun hsame => hne (List.inj_on_of_nodup_map h.ptrs hlive (h.live level hlevel hx) hsame)⟩
  case ptrs =>
    rw [hinfos]
    exact h.ptrs.sublist (List.filter_sublist.map _)
  case apart =>
    intro level' level'' hlevel' hlevel'' y hy hy'
    have hin := (hkept level' hlevel' y hy).1
    have hin' := (hkept level'' hlevel'' y hy').1
    exact h.apart level' level'' hlevel' hlevel'' y hin hin'
  case nodup =>
    intro level' hlevel'
    by_cases heq : level' = level
    · subst heq
      rw [Function.update_self]
      exact hnodup.2
    · rw [Function.update_of_ne heq]
      exact h.nodup level' hlevel'
  case fds =>
    intro level' hlevel' fd
    rw [← h.fds level' hlevel' fd]
    by_cases heq : level' = level
    · subst heq
      have hmem : fd ∈ (a ++ x :: b).map (·.fd) ↔ fd = x.fd ∨ fd ∈ (a ++ b).map (·.fd) := by
        rw [List.map_append, List.map_cons, List.perm_middle.mem_iff, List.mem_cons, ← List.map_append]
      rw [Function.update_self, hsplit, hmem]
      constructor
      · intro hfd
        refine ⟨.inr hfd, ?_⟩
        rintro ⟨-, rfl⟩
        exact hnodup.1 hfd
      · rintro ⟨hfd | hfd, hne⟩
        · exact absurd ⟨rfl, hfd⟩ hne
        · exact hfd
    · rw [Function.update_of_ne heq]
      exact (and_iff_left fun hboth => heq hboth.1).symm

/-- **The loop finds the entry of a client**, takes it out of its list and frees it. -/
theorem Entries.removeDebug (h : l.Entries debugLevelMax subs entries)
    (hlevel : IsLevel debugLevelMax (levelIndex c.debugLevel)) (hsub : subs (levelIndex c.debugLevel) c.sock) :
    ∃ t entries', l.removeDebug c = some t ∧ t.Entries debugLevelMax
      (fun level fd => subs level fd ∧ ¬ (level = levelIndex c.debugLevel ∧ fd = c.sock)) entries' := by
  obtain ⟨x, hx, hfd⟩ := List.mem_map.mp ((h.fds _ hlevel c.sock).mpr hsub)
  obtain ⟨a, b, hsplit⟩ := List.append_of_mem hx
  have hlists := h.lists _ hlevel
  have hnodup := h.nodup _ hlevel
  have hlive := h.live _ hlevel
  -- no round too many, as the entries are in memory
  have hfuel : (a.map (·.ptr)).length < l.infos.length + 1 := by
    have hle := ((List.Nodup.of_map _ hnodup).subperm hlive).length_le
    rw [hsplit, List.length_append] at hle
    rw [List.length_map]
    omega
  rw [hsplit, List.map_append, List.map_cons] at hlists hnodup
  have hbefore : ∀ ptr ∈ a.map (·.ptr), decide (l.fdAt ptr = some c.sock) = false := by
    intro ptr hptr
    obtain ⟨y, hy, rfl⟩ := List.mem_map.mp hptr
    rw [fdAt_of_mem h.ptrs (hlive (by simp [hsplit, hy])), decide_eq_false_iff_not, Option.some_inj, ← hfd]
    exact (List.nodup_append.mp hnodup).2.2 y.fd (List.mem_map_of_mem hy) x.fd List.mem_cons_self
  have hfound : decide (l.fdAt x.ptr = some c.sock) = true := by
    rw [fdAt_of_mem h.ptrs (hlive hx), hfd]
    exact decide_eq_true rfl
  have hfind := hlists.findEntry_eq_some hbefore hfound hfuel
  have hremove : l.removeDebug c = some
      { l with
        fdList := Function.update l.fdList (levelIndex c.debugLevel)
          ((l.fdList (levelIndex c.debugLevel)).listDel (lastPtr (a.map (·.ptr))) (.entry x.ptr))
        clientsNum := Function.update l.clientsNum (levelIndex c.debugLevel)
          (l.clientsNum (levelIndex c.debugLevel) - 1)
        infos := l.infos.filter fun info => info.ptr ≠ x.ptr } := by
    unfold UnixListen.removeDebug
    dsimp only
    rw [hfind]
  refine ⟨_, Function.update entries (levelIndex c.debugLevel) (a ++ b), hremove, ?_⟩
  rw [← hfd]
  apply h.erase hlevel hsplit
  · dsimp only
    rw [Function.update_self, List.map_append]
    exact Lists.listDel (c := []) hlists
  · intro level' hne
    exact ⟨Function.update_of_ne hne _ _, Function.update_of_ne hne _ _⟩
  · exact Function.update_self _ _ _
  · rfl

theorem Entries.insert (h : l.Entries debugLevelMax subs entries) (hlevel : IsLevel debugLevelMax level)
    {x : DebugLevelInfo} (hfresh : ∀ y ∈ l.infos, y.ptr ≠ x.ptr) (hsub : ¬ subs level x.fd)
    (hinfos : t.infos = x :: l.infos)
    (hlist : t.fdList = Function.update l.fdList level ((l.fdList level).listAdd (.entry x.ptr)))
    (hnum : t.clientsNum = Function.update l.clientsNum level (l.clientsNum level + 1)) :
    t.Entries debugLevelMax (fun level' fd => subs level' fd ∨ (level' = level ∧ fd = x.fd))
      (Function.update entries level (x :: entries level)) := by
  -- the new entry is in no list yet
  have hold : ∀ level', IsLevel debugLevelMax level' → ∀ y ∈ entries level', y.ptr ≠ x.ptr :=
    fun level' hlevel' y hy => hfresh y (h.live level' hlevel' hy)
  have hmem : ∀ level' y, y ∈ Function.update entries level (x :: entries level) level' ↔
      (y = x ∧ level' = level) ∨ y ∈ entries level' := by
    intro level' y
    by_cases heq : level' = level
    · subst heq
      simp
    · simp [heq]
  constructor
  case lists =>
    intro level' hlevel'
    by_cases heq : level' = level
    · subst heq
      rw [hlist, Function.update_self, Function.update_self, List.map_cons]
      refine (h.lists _ hlevel).listAdd fun hx => ?_
      obtain ⟨y, hy, hptr⟩ := List.mem_map.mp hx
      exact hold _ hlevel y hy hptr
    · rw [hlist, Function.update_of_ne heq, Function.update_of_ne heq]
      exact h.lists level' hlevel'
  case num =>
    intro level' hlevel'
    by_cases heq : level' = level
    · subst heq
      rw [hnum, Function.update_self, Function.update_self, h.num _ hlevel, List.length_cons, BitVec.ofNat_add]
      rfl
    · rw [hnum, Function.update_of_ne heq, Function.update_of_ne heq]
      exact h.num level' hlevel'
  case live =>
    intro level' hlevel' y hy
    rw [hinfos, List.mem_cons]
    exact ((hmem level' y).mp hy).imp And.left fun hy => h.live level' hlevel' hy
  case ptrs =>
    rw [hinfos, List.map_cons, List.nodup_cons]
    refine ⟨fun hx => ?_, h.ptrs⟩
    obtain ⟨y, hy, hptr⟩ := List.mem_map.mp hx
    exact hfresh y hy hptr
  case apart =>
    intro level' level'' hlevel' hlevel'' y hy hy'
    rcases (hmem level' y).mp hy with ⟨rfl, heq⟩ | hin
    · rcases (hmem level'' y).mp hy' with ⟨-, heq'⟩ | hin'
      · exact heq.trans heq'.symm
      · exact absurd rfl (hold level'' hlevel'' y hin')
    · rcases (hmem level'' y).mp hy' with ⟨rfl, -⟩ | hin'
      · exact absurd rfl (hold level' hlevel' y hin)
      · exact h.apart level' level'' hlevel' hlevel'' y hin hin'
  case nodup =>
    intro level' hlevel'
    by_cases heq : level' = level
    · subst heq
      rw [Function.update_self, List.map_cons, List.nodup_cons]
      exact ⟨fun hx => hsub ((h.fds _ hlevel x.fd).mp hx), h.nodup _ hlevel⟩
    · rw [Function.update_of_ne heq]
      exact h.nodup level' hlevel'
  case fds =>
    intro level' hlevel' fd
    rw [← h.fds level' hlevel' fd]
    by_cases heq : level' = level
    · subst heq
      rw [Function.update_self, List.map_cons, List.mem_cons, or_comm]
      exact or_congr_right (and_iff_right rfl).symm
    · rw [Function.update_of_ne heq]
      exact (or_iff_left fun hboth => heq hboth.1).symm

/-- **A new entry** goes to the front of its list. -/
theorem Entries.addDebug (h : l.Entries debugLevelMax subs entries) {debugLevel : Byte}
    (hlevel : IsLevel debugLevelMax (levelIndex debugLevel)) (hsub : ¬ subs (levelIndex debugLevel) c.sock)
    (hadd : l.addDebug c info debugLevel = some t) :
    ∃ entries', t.Entries debugLevelMax
      (fun level fd => subs level fd ∨ (level = levelIndex debugLevel ∧ fd = c.sock)) entries' := by
  unfold UnixListen.addDebug at hadd
  dsimp only at hadd
  split_ifs at hadd with hused
  have hfresh : ∀ y ∈ l.infos, y.ptr ≠ info := by simpa using hused
  cases hadd
  exact ⟨_, h.insert (x := ⟨info, c.sock⟩) hlevel hfresh hsub rfl rfl rfl⟩

/-! ## Who has an entry -/

/-- The descriptors that are due in the list of a level: the own output of the daemon, and the sockets of
the clients with that level. -/
def Subscribed (cfg : ListenConfig) (l : UnixListen) (level : ℤ) (fd : ℕ) : Prop :=
  (cfg.debugLevel ≠ 0 ∧ level = cfg.ownLevel ∧ fd = 1) ∨
    ∃ c ∈ l.clients, c.debugLevel ≠ 0 ∧ levelIndex c.debugLevel = level ∧ c.sock = fd

/-- **The invariant of the lists**: they hold the entries that are due. -/
structure DebugOk (cfg : ListenConfig) (l : UnixListen) : Prop where
  levels : ∀ c ∈ l.clients, c.debugLevel ≠ 0 → IsLevel cfg.debugLevelMax (levelIndex c.debugLevel)
  socks : ∀ c ∈ l.clients, c.sock ≠ 1 ∧ c.sock < fdSetsize
  entries : ∃ entries, l.Entries cfg.debugLevelMax (l.Subscribed cfg) entries

variable {cfg : ListenConfig} {xs : List ℕ}

theorem DebugOk.subscribed_sock (h : l.DebugOk cfg) (hok : l.ClientsOk xs) (hc : c ∈ l.clients) :
    l.Subscribed cfg level c.sock ↔ c.debugLevel ≠ 0 ∧ level = levelIndex c.debugLevel := by
  constructor
  · rintro (⟨-, -, hone⟩ | ⟨d, hd, hlevel, rfl, hsock⟩)
    · exact absurd hone (h.socks c hc).1
    · obtain rfl := hok.eq_of_sock hd hc hsock
      exact ⟨hlevel, rfl⟩
  · rintro ⟨hlevel, rfl⟩
    exact .inr ⟨c, hc, hlevel, rfl, rfl⟩

/-- The entries of the other clients. -/
def Others (cfg : ListenConfig) (l : UnixListen) (c : ListedClient) (level : ℤ) (fd : ℕ) : Prop :=
  l.Subscribed cfg level fd ∧ fd ≠ c.sock

/-- **An entry is taken out if there is one**, without reaching a `NULL`. -/
theorem DebugOk.removed (h : l.DebugOk cfg) (hok : l.ClientsOk xs) (hc : c ∈ l.clients) :
    ∃ t entries, (if c.debugLevel ≠ 0 then l.removeDebug c else some l) = some t ∧
      t.Entries cfg.debugLevelMax (l.Others cfg c) entries := by
  obtain ⟨entries, hentries⟩ := h.entries
  by_cases hlevel : c.debugLevel ≠ 0
  · rw [if_pos hlevel]
    have hsub := (h.subscribed_sock hok hc).mpr ⟨hlevel, rfl⟩
    obtain ⟨t, entries', hremove, ht⟩ := hentries.removeDebug (h.levels c hc hlevel) hsub
    refine ⟨t, entries', hremove, ht.congr rfl rfl rfl fun level _ fd => ?_⟩
    refine and_congr_right fun hfd => not_congr (and_iff_right_of_imp ?_)
    rintro rfl
    exact ((h.subscribed_sock hok hc).mp hfd).2
  · rw [if_neg hlevel]
    refine ⟨l, entries, rfl, hentries.congr rfl rfl rfl fun level _ fd => ?_⟩
    refine (and_iff_left_of_imp ?_).symm
    rintro hfd rfl
    exact hlevel ((h.subscribed_sock hok hc).mp hfd).1

theorem subscribed_map {f : ListedClient → ListedClient} (hclients : t.clients = l.clients.map f)
    (hf : ∀ x, (f x).sock = x.sock ∧ (f x).debugLevel = x.debugLevel) :
    t.Subscribed cfg level fd ↔ l.Subscribed cfg level fd := by
  unfold Subscribed
  rw [hclients]
  simp [hf]

theorem DebugOk.subscribed_set (h : l.DebugOk cfg) (hok : l.ClientsOk xs) (hc : c ∈ l.clients)
    {debugLevel : Byte} (hclients : t.clients =
      l.clients.map fun x => { x with debugLevel := if x.ptr = c.ptr then debugLevel else x.debugLevel }) :
    t.Subscribed cfg level fd ↔
      l.Others cfg c level fd ∨ debugLevel ≠ 0 ∧ level = levelIndex debugLevel ∧ fd = c.sock := by
  unfold Others Subscribed
  rw [hclients]
  constructor
  · rintro (⟨hown, hlevel, rfl⟩ | ⟨x, hx, hlevel, rfl, rfl⟩)
    · exact .inl ⟨.inl ⟨hown, hlevel, rfl⟩, (h.socks c hc).1.symm⟩
    · obtain ⟨y, hy, rfl⟩ := List.mem_map.mp hx
      dsimp only at hlevel ⊢
      by_cases hyc : y.ptr = c.ptr
      · rw [if_pos hyc] at hlevel ⊢
        exact .inr ⟨hlevel, rfl, by rw [hok.eq_of_ptr hy hc hyc]⟩
      · rw [if_neg hyc] at hlevel ⊢
        refine .inl ⟨.inr ⟨y, hy, hlevel, rfl, rfl⟩, fun hsock => hyc ?_⟩
        rw [hok.eq_of_sock hy hc hsock]
  · rintro (⟨⟨hown, hlevel, rfl⟩ | ⟨y, hy, hlevel, rfl, rfl⟩, hfd⟩ | ⟨hlevel, rfl, rfl⟩)
    · exact .inl ⟨hown, hlevel, rfl⟩
    · have hyc : y.ptr ≠ c.ptr := fun hsame => hfd (by rw [hok.eq_of_ptr hy hc hsame])
      refine .inr ⟨_, List.mem_map_of_mem hy, ?_⟩
      dsimp only
      rw [if_neg hyc]
      exact ⟨hlevel, rfl, rfl⟩
    · refine .inr ⟨_, List.mem_map_of_mem hc, ?_⟩
      dsimp only
      rw [if_pos rfl]
      exact ⟨hlevel, rfl, rfl⟩

theorem DebugOk.subscribed_filter (h : l.DebugOk cfg) (hok : l.ClientsOk xs) (hc : c ∈ l.clients)
    (hclients : t.clients = l.clients.filter fun x => x.ptr ≠ c.ptr) :
    t.Subscribed cfg level fd ↔ l.Others cfg c level fd := by
  have hmem : ∀ x, x ∈ t.clients ↔ x ∈ l.clients ∧ x.ptr ≠ c.ptr := by
    intro x
    rw [hclients, List.mem_filter, decide_eq_true_iff]
  unfold Others Subscribed
  constructor
  · rintro (⟨hown, hlevel, rfl⟩ | ⟨x, hx, hlevel, rfl, rfl⟩)
    · exact ⟨.inl ⟨hown, hlevel, rfl⟩, (h.socks c hc).1.symm⟩
    · obtain ⟨hx, hxc⟩ := (hmem x).mp hx
      refine ⟨.inr ⟨x, hx, hlevel, rfl, rfl⟩, fun hsock => hxc ?_⟩
      rw [hok.eq_of_sock hx hc hsock]
  · rintro ⟨⟨hown, hlevel, rfl⟩ | ⟨x, hx, hlevel, rfl, rfl⟩, hfd⟩
    · exact .inl ⟨hown, hlevel, rfl⟩
    · have hxc : x.ptr ≠ c.ptr := fun hsame => hfd (by rw [hok.eq_of_ptr hx hc hsame])
      exact .inr ⟨x, (hmem x).mpr ⟨hx, hxc⟩, hlevel, rfl, rfl⟩

/-! ## A step -/

theorem isLevel_levelIndex {debugLevel : Byte} (hlow : 48 < debugLevel.toNat)
    (hhigh : debugLevel.toNat ≤ debugLevelMax + 48) : IsLevel debugLevelMax (levelIndex debugLevel) := by
  unfold IsLevel levelIndex
  omega

theorem DebugOk.of_set (h : l.DebugOk cfg) {debugLevel : Byte} (hclients : t.clients =
      l.clients.map fun x => { x with debugLevel := if x.ptr = ptr then debugLevel else x.debugLevel })
    (hlevel : debugLevel ≠ 0 → IsLevel cfg.debugLevelMax (levelIndex debugLevel))
    (hentries : t.Entries cfg.debugLevelMax (t.Subscribed cfg) entries) : t.DebugOk cfg := by
  refine ⟨fun x hx hne => ?_, fun x hx => ?_, entries, hentries⟩
  · rw [hclients] at hx
    obtain ⟨y, hy, rfl⟩ := List.mem_map.mp hx
    dsimp only at hne ⊢
    split_ifs at hne ⊢ with hyc
    · exact hlevel hne
    · exact h.levels y hy hne
  · rw [hclients] at hx
    obtain ⟨y, hy, rfl⟩ := List.mem_map.mp hx
    exact h.socks y hy

theorem DebugOk.debugCommand (h : l.DebugOk cfg) (hok : l.ClientsOk xs) (hc : c ∈ l.clients)
    (hcommand : l.debugCommand cfg.debugLevelMax c buff info = some t) : t.DebugOk cfg := by
  rcases debugCommand_cases hcommand with rfl | ⟨t1, hremoved, hset⟩
  · exact h
  · obtain ⟨t2, entries1, hremoved', hentries⟩ := h.removed hok hc
    obtain rfl : t1 = t2 := Option.some.inj (hremoved.symm.trans hremoved')
    have hclients1 : t1.clients = l.clients := by rw [removed_frame hremoved]
    rcases hset with ⟨debugLevel, hlow, hhigh, hadd⟩ | rfl
    · have hlevel := isLevel_levelIndex hlow hhigh
      have hne : debugLevel ≠ 0 := by
        rintro rfl
        exact absurd hlow (by decide)
      have hclients := (addDebug_frame hadd).2
      rw [modClient_debugLevel, hclients1] at hclients
      obtain ⟨entries', hentries'⟩ := hentries.addDebug hlevel (fun hsub => hsub.2 rfl) hadd
      refine h.of_set hclients (fun _ => hlevel) (hentries'.congr rfl rfl rfl fun level _ fd => ?_)
      rw [h.subscribed_set hok hc hclients]
      exact or_congr_right (and_iff_right hne).symm
    · have hclients := modClient_debugLevel t1 c.ptr 0
      rw [hclients1] at hclients
      refine h.of_set hclients (fun hne => absurd rfl hne) (hentries.congr rfl rfl rfl fun level _ fd => ?_)
      rw [h.subscribed_set hok hc hclients]
      exact (or_iff_left fun hzero => hzero.1 rfl).symm

theorem DebugOk.of_map (h : l.DebugOk cfg) {f : ListedClient → ListedClient}
    (hclients : t.clients = l.clients.map f)
    (hf : ∀ x, (f x).sock = x.sock ∧ (f x).debugLevel = x.debugLevel) (hinfos : t.infos = l.infos)
    (hlist : t.fdList = l.fdList) (hnum : t.clientsNum = l.clientsNum) : t.DebugOk cfg := by
  obtain ⟨entries, hentries⟩ := h.entries
  refine ⟨fun x hx => ?_, fun x hx => ?_, entries, hentries.congr hinfos hlist hnum fun level _ fd =>
    (subscribed_map hclients hf).symm⟩
  · rw [hclients] at hx
    obtain ⟨y, hy, rfl⟩ := List.mem_map.mp hx
    rw [(hf y).2]
    exact h.levels y hy
  · rw [hclients] at hx
    obtain ⟨y, hy, rfl⟩ := List.mem_map.mp hx
    rw [(hf y).1]
    exact h.socks y hy

theorem DebugOk.readClient (h : l.DebugOk cfg) (hok : l.ClientsOk xs) (hc : c ∈ l.clients)
    (hread : l.readClient cfg.debugLevelMax c buff info = some t) : t.DebugOk cfg := by
  unfold UnixListen.readClient at hread
  split_ifs at hread
  · obtain rfl := Option.some.inj hread
    obtain ⟨hframe, f, hclients⟩ := l.packetCommand_frame c buff
    apply h.of_map hclients fun x => ⟨rfl, rfl⟩
    · rw [hframe]
    · rw [hframe]
    · rw [hframe]
  · exact h.debugCommand hok hc hread
  · obtain rfl := Option.some.inj hread
    exact h

/-- A message is read to its end, where `malloc` returns memory that is not in use. -/
theorem DebugOk.exists_readClient (h : l.DebugOk cfg) (hok : l.ClientsOk xs) (hc : c ∈ l.clients)
    (buff : List Byte) (hfresh : ∀ x ∈ l.infos, x.ptr ≠ info) :
    ∃ t, l.readClient cfg.debugLevelMax c buff info = some t := by
  obtain ⟨t, entries, hremoved, -⟩ := h.removed hok hc
  have hunused : ¬ (t.infos.any fun i => i.ptr = info) = true := by
    simpa using fun x hx => hfresh x (removed_infos hremoved hx)
  unfold UnixListen.readClient
  split_ifs
  · exact ⟨_, rfl⟩
  · unfold UnixListen.debugCommand
    dsimp only
    rw [hremoved, Option.bind_some]
    split_ifs
    · unfold UnixListen.addDebug
      dsimp only
      rw [if_neg hunused]
      exact ⟨_, rfl⟩
    · exact ⟨_, rfl⟩
    · exact ⟨_, rfl⟩
  · exact ⟨_, rfl⟩

theorem DebugOk.enter (h : l.DebugOk cfg) (w : UnixWalk) : (l.enter w).DebugOk cfg :=
  ⟨h.levels, h.socks, h.entries.imp fun _ hentries => hentries.congr rfl rfl rfl fun _ _ _ => Iff.rfl⟩

theorem DebugOk.closeClient (h : l.DebugOk cfg) (hok : l.ClientsOk xs) (hc : c ∈ l.clients)
    (hclose : l.closeClient w c = some t) : t.DebugOk cfg := by
  obtain ⟨t1, entries1, hremoved, hentries⟩ := h.removed hok hc
  have hclients := (closeClient_frame hclose).2.1
  have hsub : t.clients ⊆ l.clients := by
    rw [hclients]
    exact List.filter_subset_self _
  have ht : t.infos = t1.infos ∧ t.fdList = t1.fdList ∧ t.clientsNum = t1.clientsNum := by
    unfold UnixListen.closeClient at hclose
    rw [hremoved] at hclose
    cases hclose
    exact ⟨rfl, rfl, rfl⟩
  refine ⟨fun x hx => h.levels x (hsub hx), fun x hx => h.socks x (hsub hx), entries1,
    hentries.congr ht.1 ht.2.1 ht.2.2 fun level _ fd => ?_⟩
  exact (h.subscribed_filter hok hc hclients).symm

/-- **A step** keeps the invariant. -/
theorem DebugOk.step (h : l.DebugOk cfg) (hok : l.ClientsOk xs) {e : ListenEvent} {l' : UnixListen}
    (hstep : listenStep cfg.debugLevelMax l e = some l') : l'.DebugOk cfg := by
  cases listenStepped hstep with
  | accept ptr sock hwalk hnew =>
    obtain ⟨entries, hentries⟩ := h.entries
    let c0 : ListedClient := { sock := sock, uid := 0, ptr := ptr, debugLevel := 0 }
    have hmem : ∀ x, x ∈ (l.acceptClient ptr sock).clients ↔ x ∈ l.clients ∨ x = c0 := by
      intro x
      rw [acceptClient, List.mem_append, List.mem_singleton]
    refine ⟨fun x hx hne => ?_, fun x hx => ?_, entries, hentries.congr rfl rfl rfl fun level _ fd => ?_⟩
    · rcases (hmem x).mp hx with hx | rfl
      · exact h.levels x hx hne
      · exact absurd rfl hne
    · rcases (hmem x).mp hx with hx | rfl
      · exact h.socks x hx
      · exact hnew.2
    · refine or_congr_right ⟨?_, ?_⟩
      · rintro ⟨x, hx, hne, hlevel, hfd⟩
        exact ⟨x, (hmem x).mpr (.inl hx), hne, hlevel, hfd⟩
      · rintro ⟨x, hx, hne, hlevel, hfd⟩
        rcases (hmem x).mp hx with hx | rfl
        · exact ⟨x, hx, hne, hlevel, hfd⟩
        · exact absurd rfl hne
  | pass hwalk => exact h.enter _
  | skip w ptr c hwalk hpos hat => exact h.enter _
  | read w ptr c buff info t hwalk hpos hat hlen hread =>
    exact (h.readClient hok (clientAt_eq_some hat).1 hread).enter _
  | close w ptr c t hwalk hpos hat hclose =>
    exact (h.closeClient hok (clientAt_eq_some hat).1 hclose).enter _

/-! ## What follows -/

/-- `clients_num` does not overflow: descriptors are below `FD_SETSIZE`. -/
theorem DebugOk.length_le (h : l.DebugOk cfg)
    (hentries : l.Entries cfg.debugLevelMax (l.Subscribed cfg) entries)
    (hlevel : IsLevel cfg.debugLevelMax level) : (entries level).length ≤ fdSetsize := by
  have hbelow : (entries level).map (·.fd) ⊆ List.range fdSetsize := by
    intro fd hfd
    rw [List.mem_range]
    rcases (hentries.fds level hlevel fd).mp hfd with ⟨-, -, rfl⟩ | ⟨c, hc, -, -, rfl⟩
    · decide
    · exact (h.socks c hc).2
  have hle := ((hentries.nodup level hlevel).subperm hbelow).length_le
  rwa [List.length_map, List.length_range] at hle

theorem DebugOk.levelsOk (h : l.DebugOk cfg) (hok : l.ClientsOk xs) : l.LevelsOk cfg.debugLevelMax := by
  obtain ⟨entries, hentries⟩ := h.entries
  refine ⟨fun level => (entries level).map (·.fd),
    fun level hlevel => ⟨⟨_, hentries.lists level hlevel, ?_⟩, ?_⟩,
    fun c hc => ⟨fun hne => ?_, fun level hlevel hother => ?_⟩⟩
  · rw [List.map_map, List.map_map]
    apply List.map_congr_left
    intro x hx
    exact fdAt_of_mem hentries.ptrs (hentries.live level hlevel hx)
  · have hle := h.length_le hentries hlevel
    have hsmall : fdSetsize < 2 ^ 15 := by decide
    rw [hentries.num level hlevel, List.length_map, BitVec.toInt_eq_toNat_of_lt]
    · rw [BitVec.toNat_ofNat, Nat.mod_eq_of_lt (by omega)]
    · rw [BitVec.toNat_ofNat, Nat.mod_eq_of_lt (by omega)]
      omega
  · have hlevel := h.levels c hc hne
    refine ⟨hlevel, List.count_eq_one_of_mem (hentries.nodup _ hlevel) ?_⟩
    exact (hentries.fds _ hlevel c.sock).mpr ((h.subscribed_sock hok hc).mpr ⟨hne, rfl⟩)
  · intro hmem
    obtain ⟨hne, heq⟩ := (h.subscribed_sock hok hc).mp ((hentries.fds level hlevel c.sock).mp hmem)
    exact hother.elim hne fun hother => hother heq

theorem entries_empty (l : UnixListen) :
    ({ l with infos := [], fdList := fun _ => .init, clientsNum := fun _ => 0 }).Entries debugLevelMax
      (fun _ _ => False) (fun _ => []) where
  lists _ _ := lists_init
  num _ _ := rfl
  live _ _ := List.nil_subset _
  ptrs := List.nodup_nil
  apart _ _ _ _ _ hx := absurd hx List.not_mem_nil
  nodup _ _ := List.nodup_nil
  fds _ _ _ := iff_of_false List.not_mem_nil not_false

theorem boot_debugOk (cfg : ListenConfig) : cfg.boot.DebugOk cfg := by
  have hown : ∀ level fd, cfg.boot.Subscribed cfg level fd ↔
      cfg.debugLevel ≠ 0 ∧ level = cfg.ownLevel ∧ fd = 1 := by
    intro level fd
    refine or_iff_left ?_
    rintro ⟨c, hc, -⟩
    cases hc
  refine ⟨fun c hc => absurd hc List.not_mem_nil, fun c hc => absurd hc List.not_mem_nil, ?_⟩
  by_cases hzero : cfg.debugLevel = 0
  · refine ⟨_, cfg.boot.entries_empty.congr (if_pos hzero) (if_pos hzero) (if_pos hzero) fun level _ fd => ?_⟩
    rw [hown]
    exact iff_of_false not_false fun hnonzero => hnonzero.1 hzero
  · have hlevel : IsLevel cfg.debugLevelMax cfg.ownLevel := by
      have hle := cfg.debugLevel_le
      unfold IsLevel ListenConfig.ownLevel
      omega
    have hinsert := cfg.boot.entries_empty.insert (x := ⟨cfg.info, 1⟩) (t := cfg.boot) hlevel
      (fun y hy => absurd hy List.not_mem_nil) not_false (if_neg hzero) (if_neg hzero) (if_neg hzero)
    refine ⟨_, hinsert.congr rfl rfl rfl fun level _ fd => ?_⟩
    rw [hown, false_or]
    exact (and_iff_right hzero).symm

end UnixListen

variable {cfg : ListenConfig} {tr : List (UnixListen × ListenEvent)} {l : UnixListen}

theorem ListenRun.debugOk (run : ListenRun cfg tr l) : ∃ xs, l.ListOk xs ∧ l.DebugOk cfg :=
  (run.state_invariant (I := fun l => ∃ xs, l.ListOk xs ∧ l.DebugOk cfg)
    ⟨[], cfg.boot_listOk, UnixListen.boot_debugOk cfg⟩ fun _ _ _ ⟨_, hok, hdebug⟩ hstep =>
      (hok.step hstep).imp fun _ hok' => ⟨hok', hdebug.step hok.toClientsOk hstep⟩).2

/-- **A run goes on** with whatever a client does: the loops end, and no `NULL` and no freed client is
reached. -/
theorem ListenRun.progress (run : ListenRun cfg tr l) {w : UnixWalk} (hwalk : l.walk = some w)
    {e : ListenEvent} (he : e = .skip ∨ e = .close ∨ ∃ buff info, e = .read buff info ∧
      0 < buff.length ∧ buff.length ≤ unixBuffSize ∧ ∀ x ∈ l.infos, x.ptr ≠ info) :
    (listenStep cfg.debugLevelMax l e).isSome := by
  obtain ⟨xs, hok, hdebug⟩ := run.debugOk
  obtain ⟨-, a, ptr, b, rfl, hpos, -⟩ := hok.walk w hwalk
  obtain ⟨c, hc, rfl⟩ := List.mem_map.mp (hok.live ptr (by simp))
  have hat := hok.toClientsOk.clientAt_ptr hc
  obtain ⟨t, entries, hremoved, -⟩ := hdebug.removed hok.toClientsOk hc
  unfold listenStep
  simp only [hwalk, hpos, hat]
  rcases he with rfl | rfl | ⟨buff, info, rfl, hnonempty, hlen, hfresh⟩
  · rfl
  · unfold UnixListen.closeClient
    simp only [hremoved, Option.map_some, Option.isSome_some]
  · obtain ⟨t', hread⟩ := hdebug.exists_readClient hok.toClientsOk hc buff hfresh
    simp only [hnonempty, hlen, hread, and_self, if_true, Option.map_some, Option.isSome_some]

/-- **`clients_num`, the lists and the levels of the clients agree**, all through a run. -/
theorem levels_agree (run : ListenRun cfg tr l) : l.LevelsOk cfg.debugLevelMax := by
  obtain ⟨xs, hok, hdebug⟩ := run.debugOk
  exact hdebug.levelsOk hok.toClientsOk

def Net.debugMessage (debugLevel : Byte) : List Byte := [0x64, 0x3a, debugLevel]

/-- A daemon with output of level 3, and two clients: the first asks for level 3, then for 4, the second
for 3 twice. -/
theorem levels_agree_moved : ∃ tr l, ListenRun ⟨5, 3, by decide, 7⟩ tr l ∧
    tr.map Prod.snd = [.accept 1 5, .accept 2 6, .pass, .read (Net.debugMessage 51) 8,
      .read (Net.debugMessage 51) 9, .pass, .read (Net.debugMessage 52) 10, .read (Net.debugMessage 51) 8] ∧
    (l.clientsNum 2 = 1 ∧ l.clientsNum 3 = 1) ∧ l.LevelsOk 5 := by
  have hrun : ∃ tr l, ListenRun ⟨5, 3, by decide, 7⟩ tr l ∧
      tr.map Prod.snd = [.accept 1 5, .accept 2 6, .pass, .read (Net.debugMessage 51) 8,
        .read (Net.debugMessage 51) 9, .pass, .read (Net.debugMessage 52) 10, .read (Net.debugMessage 51) 8] ∧
      decide (l.clientsNum 2 = 1 ∧ l.clientsNum 3 = 1) = true := Trace.exists_of_exec (by decide +kernel)
  obtain ⟨tr, l, run, hevents, hnum⟩ := hrun
  exact ⟨tr, l, run, hevents, of_decide_eq_true hnum, levels_agree run⟩

end BatmanAdv
