import NodeServer.Proof.Causes
import NodeServer.Proof.Connections

/-! # Why a server closes a connection

A server closes an open connection of its own accord in two places only: after the
response to a logout, and for a login that has found in Redis the record another login
has left for the connection. -/

namespace NodeServer

open DBModelKeys

section

variable {tr : List (World × Event)} {w v : World} {e : Event} {p : Pid} {i : Input} {x : Proc}

theorem NoticeCause.kicks {dest : Str} {notice : Notice} {after : AfterSend}
    (h : NoticeCause tr dest notice after) (hk : notice.isKick = true) :
    ∃ l, notice = .kick l.user.userId ∧ after = .login l ∧ l.user.userId = dest ∧
      LoginAsked tr l.user.socketId l.user.userId := by
  cases h with
  | kick l named asked =>
    subst named
    exact ⟨l, rfl, rfl, rfl, asked⟩
  | chat u room msg member notice text =>
    rw [text] at hk
    cases hk
  | message u noted req toUserId q sender l user given found taken named notice text =>
    rw [text] at hk
    cases hk
  | _ => cases hk

/-- A kick comes from the first lookup of a login. -/
theorem Caused.kickLogin (ht : Caused tr w) (hw : WF w) (h : Handled w v e p i x) {notice : Notice}
    {after : AfterSend} {userList : List User} (hr : Resolves i x (.notice notice after) userList)
    (hk : notice.isKick = true) : ∃ l, (LookupFor.notice notice after).login = some l := by
  obtain ⟨⟨dest, hcause⟩, _⟩ := ht.resolved hw h hr
  obtain ⟨l, _, rfl, _⟩ := NoticeCause.kicks hcause hk
  exact ⟨l, rfl⟩

end

end NodeServer
