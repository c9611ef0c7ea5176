import IMoviesCA.Lib.Program
import IMoviesCA.Lib.Table
import IMoviesCA.Lib.Serial
import IMoviesCA.Lib.Moments
import IMoviesCA.Lib.Processes
import IMoviesCA.Lib.Watch
import IMoviesCA.Lib.Codes
import IMoviesCA.Lib.Lines
import IMoviesCA.Lib.Der
import IMoviesCA.X500
import IMoviesCA.DataModel
import IMoviesCA.Pem
import IMoviesCA.State
import IMoviesCA.CertServer
import IMoviesCA.WebServer
import IMoviesCA.Alone
import IMoviesCA.Trace
import IMoviesCA.Contract
import IMoviesCA.Handlers
import IMoviesCA.Run
import IMoviesCA.Ledger
import IMoviesCA.Deployment
import IMoviesCA.SerialNumbers
import IMoviesCA.Crl
import IMoviesCA.AppendOnly
import IMoviesCA.SharedCrl
import IMoviesCA.RevocationDates
import IMoviesCA.CrlRefresh
import IMoviesCA.Revocation
import IMoviesCA.AllOrNothing
import IMoviesCA.PrivateKeyStore
import IMoviesCA.StoredKey
import IMoviesCA.PasswordChange
import IMoviesCA.ProfileUpdate
import IMoviesCA.EmailAddress
import IMoviesCA.CertifiedProfile
import IMoviesCA.UniqueEmail
import IMoviesCA.Authentication
import IMoviesCA.SubjectName
import IMoviesCA.CertificateLogin
import IMoviesCA.Isolation
import IMoviesCA.Encoding
import IMoviesCA.ChangePassword
import IMoviesCA.PasswordPolicy
import IMoviesCA.Sessions
import IMoviesCA.SessionContract
import IMoviesCA.WebLogin
import IMoviesCA.AdminBan
import IMoviesCA.AdminPolicy
import IMoviesCA.CookieValidation
import IMoviesCA.Statistics
import IMoviesCA.Serialisability
import IMoviesCA.PemRoundTrip
import IMoviesCA.KeyBackup
import IMoviesCA.BackupRun
import IMoviesCA.BackupLock
import IMoviesCA.DatabaseBackup
import IMoviesCA.Replies
import IMoviesCA.Registration
import IMoviesCA.KeyEscrow
import IMoviesCA.Attestation
import IMoviesCA.StaleLock
import IMoviesCA.Messages
import IMoviesCA.HealthCheck
import IMoviesCA.NginxCrl
import IMoviesCA.SessionLife
import IMoviesCA.CertificatesPage
import IMoviesCA.Grants
import IMoviesCA.Takeover
import IMoviesCA.CurrentCertificates
