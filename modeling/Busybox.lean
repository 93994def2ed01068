import Busybox.Udhcp.LeaseFile
import Busybox.Udhcp.Reserved
import Busybox.Shell.Correct
import Busybox.Sort.Main
import Busybox.Sed.Selection
import Busybox.Passwd.Serial
import Busybox.Uuencode.RoundTrip
import Busybox.Test.Main
import Busybox.Tftp.Main
import Busybox.Expand.Columns
import Busybox.Libbb.ModeText
import Busybox.Shell.Termination
import Busybox.Syslog.Main
import Busybox.Archival.Main
import Busybox.Uuencode.Termination
import Busybox.Archival.Pax
import Busybox.Archival.TarHeader
import Busybox.Archival.GzipMember
import Busybox.Archival.InflateAborts
import Busybox.Diff.Main
import Busybox.Udhcp.OptionWalk
import Busybox.Udhcp.Scan
import Busybox.Udhcp.SetAside
import Busybox.Udhcp.OptionRoundTrip
import Busybox.Coreutils.ExprSteps
import Busybox.Libbb.Unicode
import Busybox.Coreutils.Shuf
import Busybox.Sort.KeySpan
import Busybox.Sed.WhichMatch
import Busybox.Coreutils.Factorization
import Busybox.Coreutils.Dd
import Busybox.Coreutils.CutFields
import Busybox.Coreutils.Translation
import Busybox.Crond.Rejected
import Busybox.Dpkg.VersionOrder
import Busybox.Dpkg.NameHashtable
import Busybox.Bc.Modexp
import Busybox.Telnetd.Decoding
import Busybox.Lineedit.Sharing
import Busybox.Syslog.SplitBounds
import Busybox.Xargs.Lines
import Busybox.Xargs.Batches
import Busybox.Httpd.Canonical
import Busybox.Coreutils.SplitFiles
import Busybox.Pwdgrp.Reports
import Busybox.Coreutils.TailBounds
import Busybox.Coreutils.HeadTail
import Busybox.LinuxCode.HashName
import Busybox.Dnsd.Confined
import Busybox.Awk.HashWalk
import Busybox.Awk.Records
import Busybox.Libbb.Crc32
import Busybox.Hash.Sha1Block
